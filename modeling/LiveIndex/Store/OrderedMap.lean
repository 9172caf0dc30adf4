/-! A map as a list of pairs with distinct keys. Setting a present key keeps its place, so that the
order of the pairs is the order in which the keys came. -/

namespace LiveIndex

/-- A finite map that remembers the order in which its keys were first inserted. -/
structure OrderedMap (κ : Type) (ν : Type) where
  items : List (κ × ν)
  nodup : (items.map Prod.fst).Nodup

namespace OrderedMap

variable {κ ν : Type} [DecidableEq κ]

def empty : OrderedMap κ ν :=
  ⟨[], List.nodup_nil⟩

instance : Inhabited (OrderedMap κ ν) :=
  ⟨empty⟩

def keys (m : OrderedMap κ ν) : List κ :=
  m.items.map Prod.fst

def values (m : OrderedMap κ ν) : List ν :=
  m.items.map Prod.snd

def size (m : OrderedMap κ ν) : Nat :=
  m.items.length

def isEmpty (m : OrderedMap κ ν) : Bool :=
  m.items.isEmpty

def get? (m : OrderedMap κ ν) (k : κ) : Option ν :=
  (m.items.find? fun kv => kv.1 = k).map Prod.snd

def contains (m : OrderedMap κ ν) (k : κ) : Bool :=
  m.items.any fun kv => kv.1 = k

def filter (m : OrderedMap κ ν) (p : κ → ν → Bool) : OrderedMap κ ν where
  items := m.items.filter fun kv => p kv.1 kv.2
  nodup := m.nodup.sublist (List.filter_sublist.map Prod.fst)

def erase (m : OrderedMap κ ν) (k : κ) : OrderedMap κ ν :=
  m.filter fun k' _ => k' ≠ k

/-- Puts a value in the place of the one under the key, or at the end. -/
def putItem (k : κ) (v : ν) : List (κ × ν) → List (κ × ν)
  | [] => [(k, v)]
  | kv :: rest => if kv.1 = k then (k, v) :: rest else kv :: putItem k v rest

theorem keys_putItem (k : κ) (v : ν) (items : List (κ × ν)) :
    (putItem k v items).map Prod.fst =
      if k ∈ items.map Prod.fst then items.map Prod.fst else items.map Prod.fst ++ [k] := by
  induction items with
  | nil => simp [putItem]
  | cons kv rest ih =>
    by_cases h : kv.1 = k
    · simp [putItem, h]
    · have h' : ¬ k = kv.1 := fun e => h e.symm
      by_cases hk : k ∈ rest.map Prod.fst
      · simp only [putItem, h, if_false, List.map_cons, ih, hk, if_true, List.mem_cons, or_true]
      · simp only [putItem, h, if_false, List.map_cons, ih, hk, List.mem_cons, h', or_self,
          List.cons_append]

/-- Sets the value under a key: a present key keeps its place, a new one goes to the end. -/
def insert (m : OrderedMap κ ν) (k : κ) (v : ν) : OrderedMap κ ν where
  items := putItem k v m.items
  nodup := by
    rw [keys_putItem]
    split
    · exact m.nodup
    · next h =>
      refine List.nodup_append.mpr ⟨m.nodup, by simp, ?_⟩
      intro a ha b hb hab
      simp only [List.mem_singleton] at hb
      exact h (hb ▸ hab ▸ ha)

/-- A key that is set anew keeps its place, and one that was not there is the last. -/
theorem keys_insert (m : OrderedMap κ ν) (k : κ) (v : ν) :
    (m.insert k v).keys = if k ∈ m.keys then m.keys else m.keys ++ [k] :=
  keys_putItem k v m.items

theorem find?_putItem (k k' : κ) (v : ν) (items : List (κ × ν)) :
    ((putItem k v items).find? fun kv => kv.1 = k') =
      if k = k' then some (k, v) else items.find? fun kv => kv.1 = k' := by
  induction items with
  | nil => by_cases h : k = k' <;> simp [putItem, h]
  | cons kv rest ih =>
    by_cases hk : kv.1 = k
    · by_cases h : k = k'
      · simp [putItem, hk, h]
      · simp [putItem, hk, h]
    · by_cases hk' : kv.1 = k'
      · have h : ¬ k = k' := fun e => hk (hk'.trans e.symm)
        have hk'' : ¬ k' = k := fun e => h e.symm
        simp [putItem, hk', h, hk'']
      · simp [putItem, hk, hk', ih]

/-- Setting a key changes what is found under it and nothing else. -/
theorem get?_insert (m : OrderedMap κ ν) (k k' : κ) (v : ν) :
    (m.insert k v).get? k' = if k = k' then some v else m.get? k' := by
  simp only [get?, insert, find?_putItem]
  split <;> rfl

/-- Removing a key changes what is found under it and nothing else. -/
theorem get?_erase (m : OrderedMap κ ν) (k k' : κ) :
    (m.erase k).get? k' = if k = k' then none else m.get? k' := by
  simp only [get?, erase, filter, List.find?_filter]
  by_cases h : k = k'
  · subst h
    simp
  · have same (kv : κ × ν) : (!decide (kv.1 = k) && decide (kv.1 = k')) = decide (kv.1 = k') := by
      by_cases hk : kv.1 = k' <;> simp [hk, Ne.symm h]
    simp [same, h]

/-- Removes a key and puts its new value at the end. -/
def moveToEnd (m : OrderedMap κ ν) (k : κ) (v : ν) : OrderedMap κ ν :=
  (m.erase k).insert k v

/-- Inserts pairs from left to right. -/
def ofList (items : List (κ × ν)) : OrderedMap κ ν :=
  items.foldl (fun m kv => m.insert kv.1 kv.2) empty

end OrderedMap

end LiveIndex
