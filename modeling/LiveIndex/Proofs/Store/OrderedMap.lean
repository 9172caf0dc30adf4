import LiveIndex.Store.OrderedMap
import Mathlib.Algebra.BigOperators.Group.List.Basic
import Mathlib.Data.List.Induction
import Mathlib.Tactic.Abel

/-! What is found in a map after its operations, and the sum of a quantity over its values. -/

namespace LiveIndex.OrderedMap

variable {κ ν M : Type} [AddCommGroup M]

theorem ext_items {m n : OrderedMap κ ν} (h : m.items = n.items) : m = n := by
  cases m
  cases n
  cases h
  rfl

/-- The sum of a quantity over the values of a map. -/
def total (f : ν → M) (m : OrderedMap κ ν) : M :=
  (m.values.map f).sum

theorem total_eq (f : ν → M) (m : OrderedMap κ ν) :
    m.total f = (m.items.map fun kv => f kv.2).sum := by
  rw [total, values, List.map_map]
  rfl

theorem total_filter (f : ν → M) (m : OrderedMap κ ν) (p : κ → ν → Bool) :
    (m.filter p).total f + (m.filter fun k v => !p k v).total f = m.total f := by
  have hsplit (items : List (κ × ν)) :
      ((items.filter fun kv => p kv.1 kv.2).map fun kv => f kv.2).sum +
        ((items.filter fun kv => !p kv.1 kv.2).map fun kv => f kv.2).sum =
      (items.map fun kv => f kv.2).sum := by
    induction items with
    | nil => simp
    | cons kv items ih =>
      rw [List.map_cons, List.sum_cons, ← ih]
      cases hp : p kv.1 kv.2
      · simp only [List.filter_cons, hp, Bool.false_eq_true, if_false, Bool.not_false, if_true,
          List.map_cons, List.sum_cons]
        abel
      · simp only [List.filter_cons, hp, Bool.false_eq_true, if_false, Bool.not_true, if_true,
          List.map_cons, List.sum_cons]
        abel
  rw [total_eq, total_eq, total_eq]
  exact hsplit m.items

variable [DecidableEq κ]

theorem get?_of_mem {m : OrderedMap κ ν} {k : κ} {v : ν} (h : (k, v) ∈ m.items) :
    m.get? k = some v := by
  have hfind (items : List (κ × ν)) (hn : (items.map Prod.fst).Nodup) (h : (k, v) ∈ items) :
      (items.find? fun kv => kv.1 = k) = some (k, v) := by
    induction items with
    | nil => exact absurd h List.not_mem_nil
    | cons kv items ih =>
      obtain ⟨hk, hn⟩ := List.nodup_cons.mp hn
      rcases List.mem_cons.mp h with rfl | h
      · simp
      · have hne : kv.1 ≠ k := fun he => hk (he ▸ List.mem_map_of_mem (f := Prod.fst) h)
        rw [List.find?_cons_of_neg (by simpa using hne)]
        exact ih hn h
  rw [get?, hfind m.items m.nodup h]
  rfl

theorem mem_of_get? {m : OrderedMap κ ν} {k : κ} {v : ν} (h : m.get? k = some v) :
    (k, v) ∈ m.items := by
  obtain ⟨⟨k', v'⟩, hf, rfl⟩ := Option.map_eq_some_iff.mp h
  have hk : k' = k := by simpa using List.find?_some hf
  exact hk ▸ List.mem_of_find?_eq_some hf

theorem mem_values_iff {m : OrderedMap κ ν} {v : ν} : v ∈ m.values ↔ ∃ k, m.get? k = some v := by
  constructor
  · intro h
    obtain ⟨⟨k, v'⟩, hkv, rfl⟩ := List.mem_map.mp h
    exact ⟨k, get?_of_mem hkv⟩
  · rintro ⟨k, h⟩
    exact List.mem_map.mpr ⟨(k, v), mem_of_get? h, rfl⟩

/-- Values that name their keys have distinct names. -/
theorem nodup_map_values {m : OrderedMap κ ν} {name : ν → κ}
    (h : ∀ k v, m.get? k = some v → name v = k) : (m.values.map name).Nodup := by
  have hnames : m.values.map name = m.items.map Prod.fst := by
    rw [values, List.map_map]
    apply List.map_congr_left
    intro kv hkv
    exact h kv.1 kv.2 (get?_of_mem hkv)
  rw [hnames]
  exact m.nodup

theorem mem_keys_iff {m : OrderedMap κ ν} {k : κ} : k ∈ m.keys ↔ ∃ v, m.get? k = some v := by
  constructor
  · intro h
    obtain ⟨⟨k', v⟩, hkv, rfl⟩ := List.mem_map.mp h
    exact ⟨v, get?_of_mem hkv⟩
  · rintro ⟨v, h⟩
    exact List.mem_map.mpr ⟨(k, v), mem_of_get? h, rfl⟩

/-- Two maps whose values agree in a quantity at every key have the same sum of it. -/
theorem total_congr {f : ν → M} {m n : OrderedMap κ ν}
    (h : ∀ k, Option.Rel (fun a b => f a = f b) (m.get? k) (n.get? k)) : m.total f = n.total f := by
  -- Each sum goes over the keys, and those are the same apart from their order.
  have hsum (m : OrderedMap κ ν) :
      m.total f = (m.keys.map fun k => (m.get? k).elim 0 f).sum := by
    rw [total_eq, keys, List.map_map]
    refine congrArg List.sum (List.map_congr_left fun kv hkv => ?_)
    rw [Function.comp_apply, get?_of_mem hkv]
    rfl
  have hkeys : m.keys.Perm n.keys := by
    refine (List.perm_ext_iff_of_nodup m.nodup n.nodup).mpr fun k => ?_
    rw [← keys, ← keys, mem_keys_iff, mem_keys_iff]
    have hk := h k
    generalize m.get? k = v, n.get? k = w at hk
    cases hk with
    | none => exact iff_of_false nofun nofun
    | some hvalue => exact iff_of_true ⟨_, rfl⟩ ⟨_, rfl⟩
  have hvalues : ∀ k, (m.get? k).elim 0 f = (n.get? k).elim 0 f := by
    intro k
    have hk := h k
    generalize m.get? k = v, n.get? k = w at hk
    cases hk with
    | none => rfl
    | some hvalue => exact hvalue
  rw [hsum, hsum, (hkeys.map _).sum_eq]
  simp only [hvalues]

theorem contains_eq_isSome (m : OrderedMap κ ν) (k : κ) : m.contains k = (m.get? k).isSome := by
  rw [contains, get?, Option.isSome_map, List.isSome_find?]

theorem contains_insert (m : OrderedMap κ ν) (k k' : κ) (v : ν) :
    (m.insert k v).contains k' = (decide (k = k') || m.contains k') := by
  rw [contains_eq_isSome, contains_eq_isSome, get?_insert]
  by_cases h : k = k'
  · rw [if_pos h, decide_eq_true h]
    rfl
  · rw [if_neg h, decide_eq_false h]
    rfl

theorem get?_filter (m : OrderedMap κ ν) (p : κ → ν → Bool) (k : κ) :
    (m.filter p).get? k = (m.get? k).filter (p k) := by
  cases h : m.get? k with
  | none =>
    cases h' : (m.filter p).get? k with
    | none => rfl
    | some v =>
      have hm := (List.mem_filter.mp (mem_of_get? h')).1
      rw [get?_of_mem hm] at h
      cases h
  | some v =>
    have hm := mem_of_get? h
    by_cases hp : p k v = true
    · rw [Option.filter_some, if_pos hp]
      exact get?_of_mem (List.mem_filter.mpr ⟨hm, hp⟩)
    · rw [Option.filter_some, if_neg hp]
      cases h' : (m.filter p).get? k with
      | none => rfl
      | some v' =>
        obtain ⟨hm', hp'⟩ := List.mem_filter.mp (mem_of_get? h')
        rw [get?_of_mem hm'] at h
        cases h
        exact absurd hp' hp

/-- Keys that are erased one after another are all that is gone in the end. -/
theorem foldl_erase {α : Type} (m : OrderedMap κ ν) (key : α → κ) (l : List α) :
    l.foldl (fun m a => m.erase (key a)) m = m.filter fun k _ => decide (k ∉ l.map key) := by
  induction l generalizing m with
  | nil =>
    apply ext_items
    simp [filter]
  | cons a l ih =>
    rw [List.foldl_cons, ih]
    apply ext_items
    simp only [erase, filter, List.filter_filter]
    apply List.filter_congr
    intro kv _
    simp only [List.map_cons, List.mem_cons, not_or, Bool.decide_and, Bool.and_comm, ne_eq]

theorem total_insert (f : ν → M) (m : OrderedMap κ ν) (k : κ) (v : ν) :
    (m.insert k v).total f = m.total f - (m.get? k).elim 0 f + f v := by
  -- Over lists, where the entry that is replaced is the first of its key.
  have hput (items : List (κ × ν)) :
      ((putItem k v items).map fun kv => f kv.2).sum =
        (items.map fun kv => f kv.2).sum -
          ((items.find? fun kv => kv.1 = k).map Prod.snd).elim 0 f + f v := by
    induction items with
    | nil => simp [putItem]
    | cons kv items ih =>
      by_cases hk : kv.1 = k
      · simp [putItem, hk, add_comm]
      · simp only [putItem, hk, if_false, List.map_cons, List.sum_cons, ih, decide_false,
          Bool.false_eq_true, not_false_eq_true, List.find?_cons_of_neg]
        abel
  rw [total_eq, total_eq]
  exact hput m.items

theorem total_erase (f : ν → M) (m : OrderedMap κ ν) (k : κ) :
    (m.erase k).total f = m.total f - (m.get? k).elim 0 f := by
  have hfind (items : List (κ × ν)) (hn : (items.map Prod.fst).Nodup) :
      ((items.filter fun kv => decide (kv.1 ≠ k)).map fun kv => f kv.2).sum =
        (items.map fun kv => f kv.2).sum -
          ((items.find? fun kv => kv.1 = k).map Prod.snd).elim 0 f := by
    induction items with
    | nil => simp
    | cons kv items ih =>
      obtain ⟨hk, hn⟩ := List.nodup_cons.mp hn
      by_cases he : kv.1 = k
      · -- Keys are distinct, so behind the entry nothing else goes.
        have hall : (items.filter fun kv => decide (kv.1 ≠ k)) = items := by
          refine List.filter_eq_self.mpr fun kv' hkv' => ?_
          have hne : kv'.1 ≠ k := fun h =>
            hk (he.trans h.symm ▸ List.mem_map_of_mem (f := Prod.fst) hkv')
          simpa using hne
        rw [List.filter_cons_of_neg (by simpa using he), hall]
        simp [he]
      · rw [List.filter_cons_of_pos (by simpa using he), List.map_cons, List.sum_cons, ih hn,
          List.map_cons, List.sum_cons, List.find?_cons_of_neg (by simpa using he)]
        abel
  rw [total_eq, total_eq]
  exact hfind m.items m.nodup

theorem putItem_of_notMem {k : κ} {items : List (κ × ν)} (h : k ∉ items.map Prod.fst) (v : ν) :
    putItem k v items = items ++ [(k, v)] := by
  induction items with
  | nil => rfl
  | cons kv items ih =>
    rw [List.map_cons, List.mem_cons, not_or] at h
    rw [putItem, if_neg fun he => h.1 he.symm, ih h.2, List.cons_append]

theorem values_insert_of_absent {m : OrderedMap κ ν} {k : κ} (h : m.contains k = false) (v : ν) :
    (m.insert k v).values = m.values ++ [v] := by
  have hnew : k ∉ m.items.map Prod.fst := by
    intro hmem
    obtain ⟨kv, hkv, hk⟩ := List.mem_map.mp hmem
    have hin : m.contains k = true := List.any_eq_true.mpr ⟨kv, hkv, decide_eq_true hk⟩
    rw [h] at hin
    cases hin
  have hput : (m.insert k v).items = m.items ++ [(k, v)] := putItem_of_notMem hnew v
  rw [values, values, hput, List.map_append]
  rfl

/-- The values after a key is set are the new one and those of the other keys. -/
theorem values_insert_perm (m : OrderedMap κ ν) (k : κ) (v : ν) :
    (m.insert k v).values.Perm (v :: (m.erase k).values) := by
  have hput (items : List (κ × ν)) (hn : (items.map Prod.fst).Nodup) :
      (putItem k v items).Perm ((k, v) :: items.filter fun kv => kv.1 ≠ k) := by
    induction items with
    | nil => exact List.Perm.refl _
    | cons kv items ih =>
      obtain ⟨hkv, hn⟩ := List.nodup_cons.mp hn
      by_cases hk : kv.1 = k
      · -- Keys are distinct, so all that follow stay.
        have hall : (items.filter fun kv => decide (kv.1 ≠ k)) = items := by
          refine List.filter_eq_self.mpr fun kv' hkv' => decide_eq_true ?_
          intro hk'
          rw [hk, ← hk'] at hkv
          exact hkv (List.mem_map_of_mem hkv')
        rw [putItem, if_pos hk, List.filter_cons_of_neg (by simpa using hk), hall]
      · rw [putItem, if_neg hk, List.filter_cons_of_pos (by simpa using hk)]
        exact ((ih hn).cons kv).trans (List.Perm.swap ..)
  exact (hput m.items m.nodup).map Prod.snd

theorem values_erase_perm (m : OrderedMap κ ν) (k : κ) :
    m.values.Perm ((m.erase k).values ++ (m.filter fun k' _ => k' = k).values) := by
  have hsplit := List.filter_append_perm (fun kv : κ × ν => decide (kv.1 ≠ k)) m.items
  have hrest : (m.items.filter fun kv => !decide (kv.1 ≠ k)) =
      m.items.filter fun kv => decide (kv.1 = k) := by
    refine List.filter_congr fun kv _ => ?_
    by_cases hk : kv.1 = k <;> simp [hk]
  rw [hrest] at hsplit
  have hvalues := hsplit.symm.map Prod.snd
  rw [List.map_append] at hvalues
  exact hvalues

/-- Pairs with distinct keys are the map that they make. -/
theorem items_ofList {items : List (κ × ν)} (hn : (items.map Prod.fst).Nodup) :
    (ofList items).items = items := by
  have hfold (m : OrderedMap κ ν) (hm : ((m.items ++ items).map Prod.fst).Nodup) :
      (items.foldl (fun m kv => m.insert kv.1 kv.2) m).items = m.items ++ items := by
    induction items generalizing m with
    | nil => simp
    | cons kv items ih =>
      -- Each key is new to the map so far, so its value is put at the end.
      have hk : kv.1 ∉ m.items.map Prod.fst := by
        intro hk
        rw [List.map_append, List.nodup_append] at hm
        exact hm.2.2 _ hk _ (List.mem_cons_self ..) rfl
      have hins : (m.insert kv.1 kv.2).items = m.items ++ [kv] := putItem_of_notMem hk kv.2
      rw [List.foldl_cons, ih (List.nodup_cons.mp hn).2 _ (by rwa [hins, List.append_assoc]), hins,
        List.append_assoc]
      rfl
  exact hfold empty hn

/-- Values that name their keys make the map again. -/
theorem ofList_values {m : OrderedMap κ ν} {name : ν → κ}
    (h : ∀ k v, m.get? k = some v → name v = k) :
    ofList (m.values.map fun v => (name v, v)) = m := by
  have hpairs : m.values.map (fun v => (name v, v)) = m.items := by
    rw [values, List.map_map]
    conv_rhs => rw [← List.map_id m.items]
    apply List.map_congr_left
    intro kv hkv
    have hkey := h kv.1 kv.2 (get?_of_mem hkv)
    simp only [Function.comp_apply, hkey, id_eq]
  apply ext_items
  rw [hpairs, items_ofList m.nodup]

/-- To set what is found already changes nothing. -/
theorem insert_of_get? {m : OrderedMap κ ν} {k : κ} {v : ν} (h : m.get? k = some v) :
    m.insert k v = m := by
  have hput (items : List (κ × ν)) (hfind : (items.find? fun kv => kv.1 = k) = some (k, v)) :
      putItem k v items = items := by
    induction items with
    | nil => cases hfind
    | cons kv items ih =>
      by_cases hk : kv.1 = k
      · rw [List.find?_cons_of_pos (by simpa using hk)] at hfind
        rw [putItem, if_pos hk, Option.some.inj hfind]
      · rw [List.find?_cons_of_neg (by simpa using hk)] at hfind
        rw [putItem, if_neg hk, ih hfind]
  obtain ⟨⟨k', v'⟩, hfind, rfl⟩ := Option.map_eq_some_iff.mp h
  have hk : k' = k := by simpa using List.find?_some hfind
  rw [hk] at hfind
  apply ext_items
  exact hput m.items hfind

/-- Pairs of which none contradicts another are all found in the map that they make. -/
theorem get?_ofList_iff {items : List (κ × ν)}
    (hsame : ∀ k v v', (k, v) ∈ items → (k, v') ∈ items → v = v') (k : κ) (v : ν) :
    (ofList items).get? k = some v ↔ (k, v) ∈ items := by
  have hfold : ∀ (items : List (κ × ν)) (m : OrderedMap κ ν),
      (∀ v, (items.foldl (fun m kv => m.insert kv.1 kv.2) m).get? k = some v →
        (k, v) ∈ items ∨ m.get? k = some v) ∧
      ((∃ v, (k, v) ∈ items ∨ m.get? k = some v) →
        ∃ v, (items.foldl (fun m kv => m.insert kv.1 kv.2) m).get? k = some v) := by
    intro items
    induction items with
    | nil =>
      intro m
      refine ⟨fun v hv => .inr hv, ?_⟩
      rintro ⟨v, hv | hv⟩
      · exact absurd hv List.not_mem_nil
      · exact ⟨v, hv⟩
    | cons kv items ih =>
      intro m
      obtain ⟨hback, hforth⟩ := ih (m.insert kv.1 kv.2)
      constructor
      · intro v hv
        rcases hback v hv with hv | hv
        · exact .inl (List.mem_cons_of_mem _ hv)
        · rw [get?_insert] at hv
          split at hv
          · next hk =>
            cases hv
            exact .inl (hk ▸ List.mem_cons_self)
          · exact .inr hv
      · rintro ⟨v, hv⟩
        by_cases hk : kv.1 = k
        · exact hforth ⟨kv.2, .inr (by rw [get?_insert, if_pos hk])⟩
        · rcases hv with hv | hv
          · rcases List.mem_cons.mp hv with rfl | hv
            · exact absurd rfl hk
            · exact hforth ⟨v, .inl hv⟩
          · exact hforth ⟨v, .inr (by rw [get?_insert, if_neg hk, hv])⟩
  have hnone (v : ν) : (empty : OrderedMap κ ν).get? k ≠ some v := nofun
  constructor
  · intro hv
    exact ((hfold items empty).1 v hv).resolve_right (hnone v)
  · intro hv
    obtain ⟨v', hv'⟩ := (hfold items empty).2 ⟨v, .inl hv⟩
    have hmem := ((hfold items empty).1 v' hv').resolve_right (hnone v')
    rw [hsame k v v' hv hmem]
    exact hv'

end LiveIndex.OrderedMap
