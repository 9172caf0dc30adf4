import LiveIndex.Matching.Blocks
import Mathlib.Data.List.Infix
import Mathlib.Data.Multiset.UnionInter
import Mathlib.Order.Bounds.Basic

/-! What the common blocks of two texts are. The rows of the comparison hold the longest common
ends, so the block that is found is a longest common run; and the blocks on its sides lie beside it
in both texts, so that all of them together spell a text that is a sublist of both. -/

namespace LiveIndex.Matching

variable {a b p q cs ds s t : List Char} {ns : List Nat} {i j n : Nat} {best x : Block}

/-- The length of the longest text that two texts end with. -/
def LongestEnd (p q : List Char) : Nat → Prop :=
  IsGreatest {n | ∃ s, s <:+ p ∧ s <:+ q ∧ s.length = n}

theorem LongestEnd.length_le (h : LongestEnd p q n) (hp : s <:+ p) (hq : s <:+ q) : s.length ≤ n :=
  h.2 ⟨s, hp, hq, rfl⟩

theorem longestEnd_zero (h : ∀ s, s <:+ p → s <:+ q → s = []) : LongestEnd p q 0 := by
  refine ⟨⟨[], List.nil_suffix, List.nil_suffix, rfl⟩, ?_⟩
  rintro n ⟨s, hp, hq, rfl⟩
  rw [h s hp hq, List.length_nil]

theorem longestEnd_nil_left (q : List Char) : LongestEnd [] q 0 :=
  longestEnd_zero fun _ hp _ => List.suffix_nil.mp hp

theorem longestEnd_nil_right (p : List Char) : LongestEnd p [] 0 :=
  longestEnd_zero fun _ _ hq => List.suffix_nil.mp hq

/-- One more character that is the same makes the longest common end longer by one. -/
theorem LongestEnd.concat (h : LongestEnd p q n) (c : Char) :
    LongestEnd (p ++ [c]) (q ++ [c]) (n + 1) := by
  obtain ⟨⟨s, hp, hq, hlength⟩, -⟩ := id h
  constructor
  · refine ⟨s ++ [c], ?_, ?_, by rw [List.length_append, hlength, List.length_singleton]⟩
    · exact List.suffix_concat_iff.mpr (.inr ⟨s, rfl, hp⟩)
    · exact List.suffix_concat_iff.mpr (.inr ⟨s, rfl, hq⟩)
  · rintro m ⟨s', hp', hq', rfl⟩
    rcases List.suffix_concat_iff.mp hp' with rfl | ⟨t, rfl, ht⟩
    · exact Nat.zero_le _
    · obtain ⟨t', hsame, ht'⟩ := (List.suffix_concat_iff.mp hq').resolve_left (by simp)
      obtain rfl : t = t' := List.append_cancel_right hsame
      have hle : t.length ≤ n := h.length_le ht ht'
      rw [List.length_append, List.length_singleton]
      omega

/-- Texts with different last characters have no common end. -/
theorem longestEnd_of_ne {c d : Char} (h : c ≠ d) : LongestEnd (p ++ [c]) (q ++ [d]) 0 := by
  apply longestEnd_zero
  intro s hp hq
  rcases List.suffix_concat_iff.mp hp with rfl | ⟨t, rfl, -⟩
  · rfl
  · obtain ⟨t', hsame, -⟩ := (List.suffix_concat_iff.mp hq).resolve_left (by simp)
    have hlast : c = d := by simpa using congrArg List.getLast? hsame
    exact absurd hlast h

/-- A row that belongs to the beginning `p` of the first text: its numbers are the longest common
ends of `p` and of the beginnings of the second text that are longer than `q`. -/
inductive Row (p : List Char) : List Char → List Char → List Nat → Prop
  | nil (q : List Char) : Row p q [] []
  | cons {q ds : List Char} {d : Char} {n : Nat} {ns : List Nat}
      (longest : LongestEnd p (q ++ [d]) n) (rest : Row p (q ++ [d]) ds ns) :
      Row p q (d :: ds) (n :: ns)

theorem row_start (q ds : List Char) : Row [] q ds (ds.map fun _ => 0) := by
  induction ds generalizing q with
  | nil => exact .nil q
  | cons d ds ih => exact .cons (longestEnd_nil_left _) (ih (q ++ [d]))

/-- From the row of one place comes the row of the next. -/
theorem Row.next (h : Row p q ds ns) (hdiagonal : LongestEnd p q n) (c : Char) :
    Row (p ++ [c]) q ds (nextRow c n ns ds) := by
  induction h generalizing n with
  | nil q => exact .nil q
  | @cons q ds d m ns longest rest ih =>
    refine .cons ?_ (ih longest)
    by_cases hsame : c = d
    · rw [if_pos hsame, ← hsame]
      exact hdiagonal.concat c
    · rw [if_neg hsame]
      exact longestEnd_of_ne hsame

theorem Row.exists_of_prefix (h : Row p q ds ns) (ht : t <+: ds) (hne : t ≠ []) :
    ∃ n ∈ ns, LongestEnd p (q ++ t) n := by
  induction h generalizing t with
  | nil q => exact absurd (List.prefix_nil.mp ht) hne
  | @cons q ds d m ns longest rest ih =>
    obtain ⟨t', rfl, ht'⟩ := (List.prefix_cons_iff.mp ht).resolve_left hne
    by_cases hnil : t' = []
    · rw [hnil]
      exact ⟨m, List.mem_cons_self, longest⟩
    · obtain ⟨n, hn, hlongest⟩ := ih ht' hnil
      refine ⟨n, List.mem_cons_of_mem m hn, ?_⟩
      rwa [List.append_assoc, List.singleton_append] at hlongest

/-- A block is a run that two texts have in common. -/
inductive IsRun : List Char → List Char → Block → Prop
  | run (u v s a b : List Char) : IsRun (u ++ s ++ a) (v ++ s ++ b) ⟨u.length, v.length, s.length⟩

theorem isRun_empty (a b : List Char) : IsRun a b ⟨0, 0, 0⟩ :=
  .run [] [] [] a b

/-- What two texts end with is a run of all that begins with them. -/
theorem LongestEnd.isRun (h : LongestEnd p q n) (a b : List Char) :
    IsRun (p ++ a) (q ++ b) ⟨p.length - n, q.length - n, n⟩ := by
  obtain ⟨⟨s, ⟨u, rfl⟩, ⟨v, rfl⟩, rfl⟩, -⟩ := h
  rw [List.length_append, List.length_append, Nat.add_sub_cancel, Nat.add_sub_cancel]
  exact .run u v s a b

theorem isRun_bestInRow {rest : List Char} (hrow : Row p q ds ns) (hp : p.length = i + 1)
    (hq : q.length = j) (hbest : IsRun (p ++ rest) (q ++ ds) best) :
    IsRun (p ++ rest) (q ++ ds) (bestInRow i j ns best) := by
  induction hrow generalizing j best with
  | nil q => exact hbest
  | @cons q ds d n ns longest _ ih =>
    have hlength : (q ++ [d]).length = j + 1 := by
      rw [List.length_append, hq, List.length_singleton]
    have hall : q ++ d :: ds = q ++ [d] ++ ds := by rw [List.append_assoc, List.singleton_append]
    rw [hall] at hbest ⊢
    refine ih hlength ?_
    split
    · have hrun := longest.isRun rest ds
      rwa [hp, hlength] at hrun
    · exact hbest

theorem le_bestInRow (i j : Nat) (ns : List Nat) (best : Block) :
    best.length ≤ (bestInRow i j ns best).length ∧
      ∀ n ∈ ns, n ≤ (bestInRow i j ns best).length := by
  induction ns generalizing j best with
  | nil => exact ⟨le_rfl, fun n hn => absurd hn List.not_mem_nil⟩
  | cons n ns ih =>
    rw [bestInRow]
    generalize hnext : (if best.length < n then Block.mk (i + 1 - n) (j + 1 - n) n else best) = next
    have hboth : best.length ≤ next.length ∧ n ≤ next.length := by
      rw [← hnext]
      split
      · next hlonger => exact ⟨hlonger.le, le_rfl⟩
      · next hlonger => exact ⟨le_rfl, not_lt.mp hlonger⟩
    obtain ⟨hkept, hrest⟩ := ih (j + 1) next
    refine ⟨hboth.1.trans hkept, fun m hm => ?_⟩
    rcases List.mem_cons.mp hm with rfl | hm
    · exact hboth.2.trans hkept
    · exact hrest m hm

theorem isRun_bestBlock {previous : List Nat} (hrow : Row p [] b previous) (hp : p.length = i)
    (hbest : IsRun (p ++ cs) b best) : IsRun (p ++ cs) b (bestBlock b i previous cs best) := by
  induction cs generalizing p i previous best with
  | nil => exact hbest
  | cons c cs ih =>
    have hnext : Row (p ++ [c]) [] b (nextRow c 0 previous b) :=
      hrow.next (longestEnd_nil_right p) c
    have hlength : (p ++ [c]).length = i + 1 := by
      rw [List.length_append, hp, List.length_singleton]
    have hall : p ++ c :: cs = p ++ [c] ++ cs := by rw [List.append_assoc, List.singleton_append]
    rw [hall] at hbest ⊢
    exact ih hnext hlength (isRun_bestInRow hnext hlength rfl hbest)

/-- No common run that ends where the rows have been gone through is longer than the block. -/
theorem le_bestBlock {previous : List Nat} (hrow : Row p [] b previous) (i : Nat) (best : Block) :
    best.length ≤ (bestBlock b i previous cs best).length ∧
      ∀ t q s, t <+: cs → t ≠ [] → q <+: b → s <:+ p ++ t → s <:+ q →
        s.length ≤ (bestBlock b i previous cs best).length := by
  induction cs generalizing p i previous best with
  | nil => exact ⟨le_rfl, fun t q s ht hne => absurd (List.prefix_nil.mp ht) hne⟩
  | cons c cs ih =>
    have hnext : Row (p ++ [c]) [] b (nextRow c 0 previous b) :=
      hrow.next (longestEnd_nil_right p) c
    obtain ⟨hbest, hbound⟩ := le_bestInRow i 0 (nextRow c 0 previous b) best
    obtain ⟨hkept, hlater⟩ := ih hnext (i + 1) (bestInRow i 0 (nextRow c 0 previous b) best)
    refine ⟨hbest.trans hkept, ?_⟩
    intro t q s ht hne hq hsp hsq
    obtain ⟨t', rfl, ht'⟩ := (List.prefix_cons_iff.mp ht).resolve_left hne
    have hsplit : p ++ c :: t' = p ++ [c] ++ t' := by rw [List.append_assoc, List.singleton_append]
    rw [hsplit] at hsp
    by_cases hlast : t' = []
    · -- The run ends in this row, or it is empty.
      rw [hlast, List.append_nil] at hsp
      by_cases hnil : q = []
      · rw [hnil] at hsq
        rw [List.suffix_nil.mp hsq]
        exact Nat.zero_le _
      · obtain ⟨n, hn, hlongest⟩ := hnext.exists_of_prefix hq hnil
        calc s.length ≤ n := hlongest.length_le hsp hsq
          _ ≤ (bestInRow i 0 (nextRow c 0 previous b) best).length := hbound n hn
          _ ≤ _ := hkept
    · exact hlater t' q s ht' hlast hq hsp hsq

theorem isRun_longestBlock (a b : List Char) : IsRun a b (longestBlock a b) :=
  isRun_bestBlock (row_start [] b) rfl (isRun_empty a b)

/-- No common run of two texts is longer than the one that is found. -/
theorem IsRun.length_le (h : IsRun a b x) : x.length ≤ (longestBlock a b).length := by
  cases h with
  | run u v s a b =>
    by_cases hnil : s = []
    · rw [hnil]
      exact Nat.zero_le _
    · refine (le_bestBlock (row_start [] (v ++ s ++ b)) 0 ⟨0, 0, 0⟩).2 (u ++ s) (v ++ s) s
        ⟨a, rfl⟩ ?_ ⟨b, rfl⟩ ⟨u, rfl⟩ ⟨v, rfl⟩
      exact fun h => hnil (List.append_eq_nil_iff.mp h).2

/-- Blocks that lie one after another in two texts, which begin at the places `i` and `j`. What lies
before, between and after the blocks is skipped in both. -/
inductive Laid : Nat → Nat → List Char → List Char → List Block → Prop
  | nil (i j : Nat) (a b : List Char) : Laid i j a b []
  | cons {i j : Nat} {a b : List Char} {xs : List Block} (u v s : List Char) (hs : s ≠ [])
      (rest : Laid (i + u.length + s.length) (j + v.length + s.length) a b xs) :
      Laid i j (u ++ s ++ a) (v ++ s ++ b)
        (⟨i + u.length, j + v.length, s.length⟩ :: xs)

variable {xs ys : List Block}

/-- More may be skipped at first. -/
theorem Laid.skip {u v : List Char} (h : Laid (i + u.length) (j + v.length) a b xs) :
    Laid i j (u ++ a) (v ++ b) xs := by
  cases h with
  | nil => exact .nil ..
  | @cons _ _ a b xs u' v' s hs rest =>
    -- What is skipped at first joins what lies before the first block.
    have hrest : Laid (i + (u ++ u').length + s.length) (j + (v ++ v').length + s.length)
        a b xs := by
      simpa only [List.length_append, ← Nat.add_assoc] using rest
    simpa only [List.length_append, ← Nat.add_assoc, ← List.append_assoc] using
      Laid.cons (u ++ u') (v ++ v') s hs hrest

theorem Laid.append (h : Laid i j a b xs) {a' b' : List Char}
    (h' : Laid (i + a.length) (j + b.length) a' b' ys) :
    Laid i j (a ++ a') (b ++ b') (xs ++ ys) := by
  induction h with
  | nil i j a b => exact h'.skip
  | cons u v s hs rest ih =>
    simp only [List.length_append, ← Nat.add_assoc] at h'
    simp only [List.append_assoc (u ++ s), List.append_assoc (v ++ s), List.cons_append]
    exact .cons u v s hs (ih h')

theorem laid_splitBlocks (fuel i j : Nat) (a b : List Char) :
    Laid i j a b (splitBlocks fuel i j a b) := by
  induction fuel generalizing i j a b with
  | zero => exact .nil i j a b
  | succ fuel ih =>
    have hrun := isRun_longestBlock a b
    rw [splitBlocks]
    generalize longestBlock a b = best at hrun ⊢
    split
    · exact .nil i j a b
    · next hpositive =>
      cases hrun with
      | run u v s a b =>
        have hs : s ≠ [] := fun h => hpositive (by rw [h, List.length_nil])
        -- The texts before the run and those after it are laid out by induction.
        have hbefore := ih i j u v
        have hafter := ih (i + u.length + s.length) (j + v.length + s.length) a b
        have htake (w c : List Char) : (w ++ s ++ c).take w.length = w := by
          rw [List.append_assoc, List.take_left]
        have hdrop (w c : List Char) : (w ++ s ++ c).drop (w.length + s.length) = c := by
          rw [← List.length_append, List.drop_left]
        rw [htake, htake, hdrop, hdrop, List.append_assoc, List.append_assoc]
        exact hbefore.append (.cons [] [] s hs hafter)

/-- Blocks that touch in both texts are one. -/
theorem Laid.join (h : Laid i j a b xs) : Laid i j a b (joinBlocks xs) := by
  induction h with
  | nil i j a b => exact .nil i j a b
  | @cons i j a b xs u v s hs rest ih =>
    rw [joinBlocks]
    generalize joinBlocks xs = ys at ih ⊢
    cases ih with
    | nil => exact .cons u v s hs (.nil ..)
    | @cons _ _ a b ys u' v' s' hs' rest' =>
      dsimp only
      split
      · next htouch =>
        obtain ⟨hleft, hright⟩ := htouch
        obtain rfl : u' = [] := List.length_eq_zero_iff.mp (by omega)
        obtain rfl : v' = [] := List.length_eq_zero_iff.mp (by omega)
        have hboth : s ++ s' ≠ [] := fun h => hs (List.append_eq_nil_iff.mp h).1
        have hrest : Laid (i + u.length + (s ++ s').length) (j + v.length + (s ++ s').length)
            a b ys := by
          simpa only [List.length_append, List.length_nil, Nat.add_zero, ← Nat.add_assoc]
            using rest'
        simpa only [List.length_append, List.nil_append, ← List.append_assoc] using
          Laid.cons u v (s ++ s') hboth hrest
      · exact .cons u v s hs (.cons u' v' s' hs' rest')

theorem laid_blocks (a b : List Char) : Laid 0 0 a b (blocks a b) :=
  (laid_splitBlocks a.length 0 0 a b).join

/-- The number of characters in some blocks. -/
def extent : List Block → Nat
  | [] => 0
  | x :: xs => x.length + extent xs

@[simp] theorem extent_nil : extent [] = 0 := rfl

@[simp] theorem extent_cons (x : Block) (xs : List Block) :
    extent (x :: xs) = x.length + extent xs := rfl

theorem extent_append (xs ys : List Block) : extent (xs ++ ys) = extent xs + extent ys := by
  induction xs with
  | nil => simp
  | cons x xs ih => rw [List.cons_append, extent_cons, ih, extent_cons, Nat.add_assoc]

theorem extent_map {f : Block → Block} (hf : ∀ x, (f x).length = x.length) (xs : List Block) :
    extent (xs.map f) = extent xs := by
  induction xs with
  | nil => rfl
  | cons x xs ih => rw [List.map_cons, extent_cons, hf, ih, extent_cons]

theorem extent_join (xs : List Block) : extent (joinBlocks xs) = extent xs := by
  induction xs with
  | nil => rfl
  | cons x xs ih =>
    rw [extent_cons, ← ih, joinBlocks]
    cases joinBlocks xs with
    | nil => rfl
    | cons y ys =>
      dsimp only
      split
      · rw [extent_cons, extent_cons, Nat.add_assoc]
      · rw [extent_cons]

/-- What is counted is what the joined blocks hold. -/
theorem shared_eq (a b : List Char) : shared a b = extent (blocks a b) := by
  have hcount (n : Nat) (xs : List Block) :
      (xs.map Block.length).foldl (· + ·) n = n + extent xs := by
    induction xs generalizing n with
    | nil => rfl
    | cons x xs ih => rw [List.map_cons, List.foldl_cons, ih, extent_cons, Nat.add_assoc]
  rw [blocks, extent_join, shared, hcount, Nat.zero_add]

/-- What is skipped in neither text is a part of both. -/
theorem Laid.exists_sublist (h : Laid i j a b xs) :
    ∃ t : List Char, t.Sublist a ∧ t.Sublist b ∧ t.length = extent xs := by
  induction h with
  | nil i j a b => exact ⟨[], List.nil_sublist a, List.nil_sublist b, rfl⟩
  | cons u v s hs rest ih =>
    obtain ⟨t, ha, hb, hlength⟩ := ih
    refine ⟨s ++ t, ?_, ?_, by rw [List.length_append, hlength, extent_cons]⟩
    · exact ((List.sublist_append_right u s).append ha)
    · exact ((List.sublist_append_right v s).append hb)

theorem Laid.eq_nil (h : Laid i j a b xs) (hnothing : extent xs = 0) : xs = [] := by
  cases h with
  | nil => rfl
  | cons u v s hs rest =>
    rw [extent_cons] at hnothing
    have hlength : s.length = 0 := by
      dsimp only at hnothing
      omega
    exact absurd (List.length_eq_zero_iff.mp hlength) hs

/-- Letters that two texts have in common are those of the overlap of both as multisets. -/
theorem common_eq (a b : List Char) : common a b = (a.bagInter b).length := by
  induction a generalizing b with
  | nil => rw [common, List.nil_bagInter, List.length_nil]
  | cons c a ih =>
    rw [common]
    split
    · next hc => rw [List.cons_bagInter_of_mem a hc, List.length_cons, ih]
    · next hc => rw [List.cons_bagInter_of_not_mem a hc, ih]

theorem length_le_common (ha : t.Sublist a) (hb : t.Sublist b) : t.length ≤ common a b := by
  have hinter : (t : Multiset Char) ≤ (a : Multiset Char) ∩ b :=
    Multiset.le_inter (Multiset.coe_le.mpr ha.subperm) (Multiset.coe_le.mpr hb.subperm)
  calc t.length = Multiset.card (t : Multiset Char) := (Multiset.coe_card t).symm
    _ ≤ Multiset.card ((a : Multiset Char) ∩ b) := Multiset.card_le_card hinter
    _ = (a.bagInter b).length := by rw [Multiset.coe_inter, Multiset.coe_card]
    _ = common a b := (common_eq a b).symm

/-- Blocks never count more characters than the letters that the texts have in common. -/
theorem shared_le_common (a b : List Char) : shared a b ≤ common a b := by
  obtain ⟨t, ha, hb, hlength⟩ := (laid_blocks a b).exists_sublist
  rw [shared_eq, ← hlength]
  exact length_le_common ha hb

theorem common_le_length (a b : List Char) : common a b ≤ min a.length b.length := by
  have hleft := Multiset.card_le_card (Multiset.inter_le_left (s := (a : Multiset Char)) (t := b))
  have hright := Multiset.card_le_card (Multiset.inter_le_right (s := (a : Multiset Char)) (t := b))
  rw [Multiset.coe_inter, Multiset.coe_card, Multiset.coe_card, ← common_eq] at hleft hright
  exact le_min hleft hright

/-- Texts whose blocks count as many characters as both have are the same. -/
theorem eq_of_shared (ha : shared a b = a.length) (hb : shared a b = b.length) : a = b := by
  obtain ⟨t, hsub, hsub', hlength⟩ := (laid_blocks a b).exists_sublist
  rw [← shared_eq] at hlength
  rw [← hsub.eq_of_length (hlength.trans ha), ← hsub'.eq_of_length (hlength.trans hb)]

/-- A character that two texts have in common is enough for a block. -/
theorem shared_pos {c : Char} (ha : c ∈ a) (hb : c ∈ b) : 0 < shared a b := by
  obtain ⟨u, a', rfl⟩ := List.append_of_mem ha
  obtain ⟨v, b', rfl⟩ := List.append_of_mem hb
  -- The character is a run by itself, so the longest one is not empty.
  have hrun : IsRun (u ++ [c] ++ a') (v ++ [c] ++ b') ⟨u.length, v.length, 1⟩ := .run u v [c] a' b'
  rw [List.append_assoc, List.append_assoc, List.singleton_append, List.singleton_append] at hrun
  have hlong : 1 ≤ (longestBlock (u ++ c :: a') (v ++ c :: b')).length := hrun.length_le
  rw [shared_eq, blocks, extent_join, List.length_append, List.length_cons, ← Nat.add_assoc,
    splitBlocks, if_neg (by omega), extent_append, extent_cons]
  dsimp only
  omega

/-- Nothing is counted for texts without a common character. -/
theorem shared_eq_zero_iff : shared a b = 0 ↔ a.Disjoint b := by
  constructor
  · intro h c ha hb
    exact (shared_pos ha hb).ne' h
  · intro h
    obtain ⟨t, hsub, hsub', hlength⟩ := (laid_blocks a b).exists_sublist
    rw [shared_eq, ← hlength]
    cases t with
    | nil => rfl
    | cons c t => exact (h (hsub.subset List.mem_cons_self) (hsub'.subset List.mem_cons_self)).elim

end LiveIndex.Matching
