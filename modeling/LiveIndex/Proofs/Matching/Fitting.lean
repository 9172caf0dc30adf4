import LiveIndex.Matching.Score
import LiveIndex.Proofs.Matching.Blocks
import LiveIndex.Proofs.Text.Occurrence
import Mathlib.Data.List.MinMax
import Mathlib.Data.Rat.Lemmas
import Mathlib.Algebra.Order.Field.Basic
import Mathlib.Algebra.Order.Ring.Rat
import Mathlib.Tactic.FieldSimp
import Mathlib.Tactic.Linarith
import Mathlib.Tactic.Ring

/-! What fitting a pattern to a text comes to. Windows that are left out could not have been better,
so the result is that of comparing the pattern with every window; and the ratio and the spans, which
are made one after the other, are of the same characters. -/

namespace LiveIndex.Matching

variable {pattern text : List Char} {w w' : Window}

/-- The last place of a run. -/
def Span.last (s : Span) : Nat :=
  s.start + s.length - 1

/-- What stands at the places of a run. -/
def Span.slice (text : List Char) (s : Span) : List Char :=
  (text.drop s.start).take s.length

/-- All windows of the pattern's width, or the whole text if that is not longer. -/
def everyWindow (pattern text : List Char) : List Window :=
  (List.range (text.length - pattern.length + 1)).map fun i =>
    ⟨i, (text.drop i).take pattern.length⟩

/-- Twice what a window and a pattern share over the length of both. -/
def closeness (pattern : List Char) (w : Window) : Rat :=
  2 * extent (blocks w.chars pattern) / (w.chars.length + pattern.length)

/-- Where a window shares something with a pattern. -/
def spansIn (pattern : List Char) (w : Window) : List Span :=
  (blocks w.chars pattern).map fun b => ⟨w.start + b.left, b.length⟩

/-- Fits a pattern by comparing it with every window; of the closest ones the first counts. -/
def plainFit (pattern text : List Char) : Fit :=
  match (everyWindow pattern text).argmax (closeness pattern) with
  | none => ⟨0, []⟩
  | some w => ⟨closeness pattern w, spansIn pattern w⟩

theorem windowsFrom_eq {width : Nat} (hwidth : 0 < width) (i : Nat) (text : List Char) :
    windowsFrom width i text =
      (List.range (text.length + 1 - width)).map fun k => ⟨i + k, (text.drop k).take width⟩ := by
  induction text generalizing i with
  | nil =>
    have hnone : ([] : List Char).length + 1 - width = 0 := by
      rw [List.length_nil]
      omega
    rw [hnone]
    rfl
  | cons c text ih =>
    rw [windowsFrom, List.length_cons]
    split
    · next hfits =>
      have hcount : text.length + 1 + 1 - width = text.length + 1 - width + 1 := by omega
      rw [hcount, List.range_succ_eq_map, List.map_cons, List.map_map, ih (i + 1)]
      congr 1
      apply List.map_congr_left
      intro k _
      have hplace : i + 1 + k = i + k.succ := by omega
      rw [Function.comp_apply, hplace, List.drop_succ_cons]
    · next hshort =>
      have hnone : text.length + 1 + 1 - width = 0 := by omega
      rw [hnone]
      rfl

theorem windows_eq (hpattern : pattern ≠ []) (text : List Char) :
    windows pattern text = everyWindow pattern text := by
  rw [windows, everyWindow]
  split
  · next hshort =>
    have hone : text.length - pattern.length + 1 = 1 := by omega
    rw [hone]
    simp [List.take_of_length_le hshort]
  · next hlong =>
    have hcount : text.length + 1 - pattern.length = text.length - pattern.length + 1 := by omega
    rw [windowsFrom_eq (List.length_pos_iff.mpr hpattern), hcount]
    simp

/-- A window is a part of the text, and as wide as the pattern unless the text is shorter. -/
theorem of_mem_everyWindow (hw : w ∈ everyWindow pattern text) :
    w.chars.length = min pattern.length text.length ∧
      ∃ before after, text = before ++ w.chars ++ after ∧ before.length = w.start := by
  obtain ⟨i, hi, rfl⟩ := List.mem_map.mp hw
  have hplace : i ≤ text.length - pattern.length := Nat.lt_succ_iff.mp (List.mem_range.mp hi)
  constructor
  · rw [List.length_take, List.length_drop]
    omega
  · refine ⟨text.take i, (text.drop i).drop pattern.length, ?_, ?_⟩
    · rw [List.append_assoc, List.take_append_drop, List.take_append_drop]
    · rw [List.length_take]
      dsimp only
      omega

/-- Every character of a text is in a window. -/
theorem exists_window_of_mem (hpattern : pattern ≠ []) {c : Char} (hc : c ∈ text) :
    ∃ w ∈ everyWindow pattern text, c ∈ w.chars := by
  obtain ⟨k, hk, rfl⟩ := List.getElem_of_mem hc
  have hwidth : 0 < pattern.length := List.length_pos_iff.mpr hpattern
  -- The window that begins there, or the last one.
  obtain ⟨i, hi⟩ : ∃ i, i = min k (text.length - pattern.length) := ⟨_, rfl⟩
  refine ⟨⟨i, (text.drop i).take pattern.length⟩, List.mem_map.mpr ⟨i, ?_, rfl⟩, ?_⟩
  · rw [List.mem_range]
    omega
  · have hin : k - i < ((text.drop i).take pattern.length).length := by
      rw [List.length_take, List.length_drop]
      omega
    have hget : ((text.drop i).take pattern.length)[k - i] = text[k] := by
      have hsum : i + (k - i) = k := by omega
      simp only [List.getElem_take, List.getElem_drop, hsum]
    rw [← hget]
    exact List.getElem_mem hin

theorem ratioOf_eq (pattern : List Char) (w : Window) (n : Nat) :
    ratioOf pattern w n = 2 * n / (w.chars.length + pattern.length) := by
  rw [ratioOf, Rat.mkRat_eq_div]
  push_cast
  rfl

theorem ratioOf_mono {m n : Nat} (h : m ≤ n) : ratioOf pattern w m ≤ ratioOf pattern w n := by
  rw [ratioOf_eq, ratioOf_eq]
  gcongr

theorem ratioOf_shared (pattern : List Char) (w : Window) :
    ratioOf pattern w (shared w.chars pattern) = closeness pattern w := by
  rw [ratioOf_eq, shared_eq, closeness]

theorem closeness_nonneg (pattern : List Char) (w : Window) : 0 ≤ closeness pattern w := by
  rw [closeness]
  positivity

theorem closeness_eq_zero_iff (hpattern : pattern ≠ []) :
    closeness pattern w = 0 ↔ shared w.chars pattern = 0 := by
  have hpositive : (0 : Rat) < w.chars.length + pattern.length := by
    have hwidth : 0 < pattern.length := List.length_pos_iff.mpr hpattern
    exact_mod_cast Nat.add_pos_right _ hwidth
  rw [closeness, ← shared_eq, div_eq_zero_iff, or_iff_left hpositive.ne']
  norm_cast
  omega

theorem spansIn_eq_nil (h : shared w.chars pattern = 0) : spansIn pattern w = [] := by
  rw [shared_eq] at h
  rw [spansIn, (laid_blocks w.chars pattern).eq_nil h, List.map_nil]

section Pruning

/-- What the windows that are left out have in common: they are no closer than the best one. -/
theorem improve_eq (pattern : List Char) (best : Best) (w : Window) :
    improve pattern best w =
      if best.ratio < closeness pattern w then ⟨closeness pattern w, w⟩ else best := by
  have hletters : closeness pattern w ≤ ratioOf pattern w (common w.chars pattern) := by
    rw [← ratioOf_shared]
    exact ratioOf_mono (shared_le_common w.chars pattern)
  have hlengths : ratioOf pattern w (common w.chars pattern) ≤
      ratioOf pattern w (min w.chars.length pattern.length) :=
    ratioOf_mono (common_le_length w.chars pattern)
  rw [improve]
  split
  · next hshort => rw [if_neg (hletters.trans (hlengths.trans hshort)).not_gt]
  · split
    · next hfew => rw [if_neg (hletters.trans hfew).not_gt]
    · rw [ratioOf_shared]

/-- The best window so far is the first of the closest ones; it is noted only if it shares
anything. -/
theorem foldl_improve (ws : List Window) {best : Best}
    (hbest : ws.foldl (improve pattern) ⟨0, 0, []⟩ = best) :
    (ws = [] ∧ best.ratio = 0) ∨
      ∃ w, ws.argmax (closeness pattern) = some w ∧ best.ratio = closeness pattern w ∧
        (best.ratio ≠ 0 → best.window = w) := by
  induction ws using List.reverseRecOn generalizing best with
  | nil =>
    rw [← hbest]
    exact .inl ⟨rfl, rfl⟩
  | append_singleton ws w ih =>
    right
    have hbefore := ih rfl
    rw [List.foldl_append, List.foldl_cons, List.foldl_nil, improve_eq] at hbest
    rw [List.argmax_concat]
    generalize ws.foldl (improve pattern) ⟨0, 0, []⟩ = earlier at hbest hbefore
    rw [← hbest]
    rcases hbefore with ⟨rfl, hnothing⟩ | ⟨v, hargmax, hratio, hwindow⟩
    · refine ⟨w, rfl, ?_⟩
      split
      · exact ⟨rfl, fun _ => rfl⟩
      · next hless =>
        have hzero : closeness pattern w = 0 :=
          le_antisymm (hnothing ▸ not_lt.mp hless) (closeness_nonneg pattern w)
        exact ⟨hnothing.trans hzero.symm, fun hne => absurd hnothing hne⟩
    · rw [hargmax]
      -- A window that is only as close as an earlier one does not count.
      by_cases hcloser : closeness pattern v < closeness pattern w
      · rw [if_pos (hratio ▸ hcloser)]
        exact ⟨w, if_pos hcloser, rfl, fun _ => rfl⟩
      · rw [if_neg (hratio ▸ hcloser)]
        exact ⟨v, if_neg hcloser, hratio, hwindow⟩

end Pruning

/-- There is a first of the closest windows, and it is the one that counts. -/
theorem exists_closest (pattern text : List Char) :
    ∃ w, (everyWindow pattern text).argmax (closeness pattern) = some w ∧
      plainFit pattern text = ⟨closeness pattern w, spansIn pattern w⟩ := by
  cases h : (everyWindow pattern text).argmax (closeness pattern) with
  | none =>
    have hempty := List.argmax_eq_none.mp h
    simp [everyWindow, List.range_succ] at hempty
  | some w =>
    refine ⟨w, rfl, ?_⟩
    rw [plainFit, h]

/-- A pattern that occurs in the text fits there in full. -/
theorem fit_of_occurs (hpattern : pattern ≠ []) (hoccurs : pattern <:+: text) :
    ∃ before after, text = before ++ pattern ++ after ∧
      fit pattern text = ⟨1, [⟨before.length, pattern.length⟩]⟩ := by
  obtain ⟨i, hi⟩ : ∃ i, Text.find? pattern text = some i := by
    apply Option.ne_none_iff_exists'.mp
    exact fun hnone => Text.find?_eq_none_iff.mp hnone hoccurs
  obtain ⟨before, after, htext, hbefore⟩ := Text.find?_eq_some hi
  have hnonempty : ¬ text.isEmpty = true := by
    intro hempty
    rw [List.isEmpty_iff.mp hempty] at hoccurs
    exact hpattern (List.infix_nil.mp hoccurs)
  refine ⟨before, after, htext, ?_⟩
  rw [fit, if_neg hnonempty, hi, hbefore]

/-- A pattern that does not occur in the text fits as its closest window does. -/
theorem fit_of_absent (hpattern : pattern ≠ []) (hnowhere : ¬ pattern <:+: text)
    (hw : (everyWindow pattern text).argmax (closeness pattern) = some w) :
    fit pattern text = ⟨closeness pattern w, spansIn pattern w⟩ := by
  rw [fit]
  split
  · next hempty =>
    -- No window of an empty text shares anything.
    obtain ⟨hlength, -⟩ := of_mem_everyWindow (List.argmax_mem hw)
    rw [List.isEmpty_iff.mp hempty, List.length_nil, Nat.min_zero] at hlength
    have hnothing : shared w.chars pattern = 0 := by
      rw [List.length_eq_zero_iff.mp hlength]
      exact shared_eq_zero_iff.mpr (List.disjoint_nil_left pattern)
    rw [(closeness_eq_zero_iff hpattern).mpr hnothing, spansIn_eq_nil hnothing]
  · rw [Text.find?_eq_none_iff.mpr hnowhere]
    have hfold : (everyWindow pattern text).foldl (improve pattern) ⟨0, 0, []⟩ =
        bestWindow pattern text := by
      rw [bestWindow, windows_eq hpattern]
    obtain ⟨w', hw', hratio, hwindow⟩ := (foldl_improve _ hfold).resolve_left fun h => by
      rw [h.1] at hw
      cases hw
    obtain rfl : w = w' := Option.some.inj (hw.symm.trans hw')
    dsimp only
    split
    · next hnothing =>
      have hzero : closeness pattern w = 0 := hratio.symm.trans hnothing
      rw [hzero, spansIn_eq_nil ((closeness_eq_zero_iff hpattern).mp hzero)]
    · next hsomething =>
      rw [hwindow hsomething, hratio, spansIn]

/-- For a pattern that does not occur in the text it makes no difference that windows which cannot
be better are left out. -/
theorem fit_eq_plainFit (hpattern : pattern ≠ []) (hnowhere : ¬ pattern <:+: text) :
    fit pattern text = plainFit pattern text := by
  obtain ⟨w, hw, hplain⟩ := exists_closest pattern text
  rw [hplain]
  exact fit_of_absent hpattern hnowhere hw

/-- Two windows of a misspelt word are equally close; the first counts. -/
theorem fit_eq_plainFit_misspelt :
    "raedme".toList ≠ [] ∧ ¬ "raedme".toList <:+: "readme, readme".toList ∧
      fit "raedme".toList "readme, readme".toList =
        plainFit "raedme".toList "readme, readme".toList ∧
      (plainFit "raedme".toList "readme, readme".toList).spans = [⟨0, 1⟩, ⟨1, 1⟩, ⟨3, 3⟩] := by
  have hpattern : "raedme".toList ≠ [] := by decide
  have hnowhere : ¬ "raedme".toList <:+: "readme, readme".toList := by decide
  exact ⟨hpattern, hnowhere, fit_eq_plainFit hpattern hnowhere, by decide +kernel⟩

section Agreement

variable {xs : List Block}

/-- Where a block lies in the first text. -/
def Block.span (x : Block) : Span :=
  ⟨x.left, x.length⟩

/-- The first text of a comparison may begin further on. -/
theorem Laid.shift {i j : Nat} {a b : List Char} (h : Laid i j a b xs) (k : Nat) :
    Laid (k + i) j a b (xs.map fun x => ⟨k + x.left, x.right, x.length⟩) := by
  induction h with
  | nil i j a b => exact .nil ..
  | @cons i j a b xs u v s hs rest ih =>
    simp only [← Nat.add_assoc] at ih
    simpa only [List.map_cons, Nat.add_assoc] using Laid.cons u v s hs ih

/-- The blocks of a part of a text are blocks of the whole text. -/
theorem laid_within (before a after b : List Char) :
    Laid 0 0 (before ++ a ++ after) b
      ((blocks a b).map fun x => ⟨before.length + x.left, x.right, x.length⟩) := by
  have hshifted := (laid_blocks a b).shift before.length
  have hmore := hshifted.append (.nil (before.length + 0 + a.length) (0 + b.length) after [])
  rw [List.append_nil, List.append_nil, Nat.add_zero, ← Nat.zero_add before.length] at hmore
  rw [List.append_assoc]
  have hwhole : Laid 0 0 (before ++ (a ++ after)) ([] ++ b) _ := Laid.skip hmore
  rwa [Nat.zero_add] at hwhole

/-- What the blocks cover in the first text is a part of the second one. -/
theorem Laid.covered {i j : Nat} {a b : List Char} (h : Laid i j a b xs) (before : List Char)
    (hbefore : before.length = i) :
    (xs.flatMap fun x => x.span.slice (before ++ a)).Sublist b ∧
      (xs.flatMap fun x => x.span.slice (before ++ a)).length = extent xs := by
  induction h generalizing before with
  | nil i j a b => exact ⟨List.nil_sublist b, rfl⟩
  | @cons i j a b xs u v s hs rest ih =>
    have hlength : (before ++ u ++ s).length = i + u.length + s.length := by
      rw [List.length_append, List.length_append, hbefore]
    have hfirst : Span.slice (before ++ (u ++ s ++ a)) ⟨i + u.length, s.length⟩ = s := by
      have hsplit : before ++ (u ++ s ++ a) = before ++ u ++ (s ++ a) := by
        simp only [List.append_assoc]
      have hplace : (before ++ u).length = i + u.length := by rw [List.length_append, hbefore]
      rw [Span.slice, hsplit, ← hplace, List.drop_left, List.take_left]
    obtain ⟨hsub, hcount⟩ := ih (before ++ u ++ s) hlength
    have hsame : before ++ u ++ s ++ a = before ++ (u ++ s ++ a) := by
      simp only [List.append_assoc]
    rw [hsame] at hsub hcount
    rw [List.flatMap_cons, Block.span, hfirst]
    constructor
    · exact (List.sublist_append_right v s).append hsub
    · rw [List.length_append, hcount, extent_cons]

/-- Blocks lie in order, apart from each other and within the first text. -/
theorem Laid.ordered {i j : Nat} {a b : List Char} (h : Laid i j a b xs) :
    xs.Pairwise (fun x y => x.left + x.length ≤ y.left) ∧
      ∀ x ∈ xs, i ≤ x.left ∧ 0 < x.length ∧ x.left + x.length ≤ i + a.length := by
  induction h with
  | nil i j a b => exact ⟨.nil, fun x hx => absurd hx List.not_mem_nil⟩
  | @cons i j a b xs u v s hs rest ih =>
    obtain ⟨hapart, hwithin⟩ := ih
    have hpositive : 0 < s.length := List.length_pos_iff.mpr hs
    have hall : (u ++ s ++ a).length = u.length + s.length + a.length := by
      rw [List.length_append, List.length_append]
    refine ⟨.cons (fun y hy => (hwithin y hy).1) hapart, ?_⟩
    intro x hx
    rcases List.mem_cons.mp hx with rfl | hx
    · dsimp only
      omega
    · obtain ⟨hafter, hlength, hend⟩ := hwithin x hx
      omega

/-- The spans and the ratio of a fit are of the same blocks. -/
theorem fit_eq (hpattern : pattern ≠ []) (text : List Char) :
    ∃ xs, (fit pattern text).spans = xs.map Block.span ∧ Laid 0 0 text pattern xs ∧
      (fit pattern text).ratio =
        2 * extent xs / ((min pattern.length text.length : Nat) + pattern.length) := by
  have hwidth : 0 < pattern.length := List.length_pos_iff.mpr hpattern
  by_cases hoccurs : pattern <:+: text
  · obtain ⟨before, after, htext, hfit⟩ := fit_of_occurs hpattern hoccurs
    have hlonger : pattern.length ≤ text.length := hoccurs.length_le
    refine ⟨[⟨before.length, 0, pattern.length⟩], by rw [hfit]; rfl, ?_, ?_⟩
    · have hlaid : Laid 0 0 (before ++ pattern ++ after) ([] ++ pattern ++ [])
          [⟨0 + before.length, 0 + 0, pattern.length⟩] :=
        .cons before [] pattern hpattern (.nil ..)
      rwa [← htext, List.nil_append, List.append_nil, Nat.zero_add] at hlaid
    · have hpositive : (0 : Rat) < pattern.length := by exact_mod_cast hwidth
      rw [hfit, min_eq_left hlonger, extent_cons, extent_nil, Nat.add_zero]
      field_simp
      ring
  · obtain ⟨w, hw, -⟩ := exists_closest pattern text
    obtain ⟨hlength, before, after, htext, hbefore⟩ := of_mem_everyWindow (List.argmax_mem hw)
    rw [fit_of_absent hpattern hoccurs hw]
    refine ⟨_, ?_, htext ▸ laid_within before w.chars after pattern, ?_⟩
    · rw [spansIn, List.map_map, hbefore]
      rfl
    · rw [closeness, hlength, extent_map]
      exact fun _ => rfl

theorem extent_le {i j : Nat} {a b : List Char} (h : Laid i j a b xs) :
    extent xs ≤ min a.length b.length := by
  obtain ⟨t, ha, hb, hlength⟩ := h.exists_sublist
  rw [← hlength]
  exact le_min ha.length_le hb.length_le

theorem ratio_bounds (hpattern : pattern ≠ []) (text : List Char) :
    0 ≤ (fit pattern text).ratio ∧ (fit pattern text).ratio ≤ 1 := by
  obtain ⟨xs, -, hlaid, hratio⟩ := fit_eq hpattern text
  have hle : 2 * extent xs ≤ min pattern.length text.length + pattern.length := by
    have hextent : extent xs ≤ min text.length pattern.length := extent_le hlaid
    omega
  have hpositive : (0 : Rat) < (min pattern.length text.length : Nat) + pattern.length := by
    have hwidth : 0 < pattern.length := List.length_pos_iff.mpr hpattern
    exact_mod_cast Nat.add_pos_right _ hwidth
  rw [hratio]
  constructor
  · positivity
  · rw [div_le_one hpositive]
    exact_mod_cast hle

/-- Only a pattern that occurs in the text fits in full. -/
theorem ratio_eq_one_iff (hpattern : pattern ≠ []) :
    (fit pattern text).ratio = 1 ↔ pattern <:+: text := by
  constructor
  · intro hone
    by_contra hnowhere
    obtain ⟨w, hw, -⟩ := exists_closest pattern text
    obtain ⟨-, before, after, htext, -⟩ := of_mem_everyWindow (List.argmax_mem hw)
    have hpositive : (0 : Rat) < w.chars.length + pattern.length := by
      have hwidth : 0 < pattern.length := List.length_pos_iff.mpr hpattern
      exact_mod_cast Nat.add_pos_right _ hwidth
    rw [fit_of_absent hpattern hnowhere hw, closeness, div_eq_one_iff_eq hpositive.ne'] at hone
    have hfull : 2 * extent (blocks w.chars pattern) = w.chars.length + pattern.length := by
      exact_mod_cast hone
    have hle : extent (blocks w.chars pattern) ≤ min w.chars.length pattern.length :=
      extent_le (laid_blocks w.chars pattern)
    -- Everything in the window and in the pattern is shared, so they are the same.
    have hsame : w.chars = pattern := by
      apply eq_of_shared
      · rw [shared_eq]
        omega
      · rw [shared_eq]
        omega
    exact hnowhere ⟨before, after, by rw [htext, hsame]⟩
  · intro hoccurs
    obtain ⟨before, after, -, hfit⟩ := fit_of_occurs hpattern hoccurs
    rw [hfit]

/-- Only a pattern that has no character of the text does not fit at all. -/
theorem ratio_eq_zero_iff (hpattern : pattern ≠ []) :
    (fit pattern text).ratio = 0 ↔ pattern.Disjoint text := by
  by_cases hoccurs : pattern <:+: text
  · rw [(ratio_eq_one_iff hpattern).mpr hoccurs]
    constructor
    · intro h
      exact absurd h one_ne_zero
    · intro hapart
      obtain ⟨c, hc⟩ := List.exists_mem_of_ne_nil pattern hpattern
      exact (hapart hc (hoccurs.subset hc)).elim
  · obtain ⟨w, hw, -⟩ := exists_closest pattern text
    rw [fit_of_absent hpattern hoccurs hw]
    dsimp only
    constructor
    · intro hnone c hc hc'
      obtain ⟨w', hw', hin⟩ := exists_window_of_mem hpattern hc'
      have hle : closeness pattern w' ≤ 0 := hnone ▸ List.le_of_mem_argmax hw' hw
      have hzero : closeness pattern w' = 0 := le_antisymm hle (closeness_nonneg pattern w')
      exact (shared_pos hin hc).ne' ((closeness_eq_zero_iff hpattern).mp hzero)
    · intro hapart
      obtain ⟨-, before, after, htext, -⟩ := of_mem_everyWindow (List.argmax_mem hw)
      rw [closeness_eq_zero_iff hpattern, shared_eq_zero_iff]
      intro c hc hc'
      refine hapart hc' ?_
      rw [htext]
      simp [hc]

/-- The exact score of a pattern is the part of it and of its window that the spans do not cover: it
is 0 exactly if the pattern occurs in the text, and 1 exactly if it has no character of the text.
The spans are in order, apart from each other and within the text, and spell a part of the
pattern. -/
theorem score_measures_spans (hpattern : pattern ≠ []) (text : List Char) :
    let score := 1 - (fit pattern text).ratio
    let spans := (fit pattern text).spans
    let covered := spans.flatMap (Span.slice text)
    (0 ≤ score ∧ score ≤ 1) ∧ (score = 0 ↔ pattern <:+: text) ∧
      (score = 1 ↔ pattern.Disjoint text) ∧
      spans.Pairwise (fun s s' => s.last < s'.start) ∧
      (∀ s ∈ spans, s.start ≤ s.last ∧ s.last < text.length) ∧ covered.Sublist pattern ∧
      score = 1 - 2 * covered.length /
        ((min pattern.length text.length : Nat) + pattern.length) := by
  intro score spans covered
  obtain ⟨hlow, hhigh⟩ := ratio_bounds hpattern text
  obtain ⟨xs, hspans, hlaid, hratio⟩ := fit_eq hpattern text
  obtain ⟨hapart, hwithin⟩ := hlaid.ordered
  obtain ⟨hsub, hcount⟩ := hlaid.covered [] rfl
  have hcovered : covered = xs.flatMap fun x => x.span.slice text := by
    change spans.flatMap _ = _
    rw [show spans = xs.map Block.span from hspans, List.flatMap_map]
  refine ⟨⟨by linarith, by linarith⟩, ?_, ?_, ?_, ?_, ?_, ?_⟩
  · rw [← ratio_eq_one_iff hpattern, sub_eq_zero, eq_comm]
  · rw [← ratio_eq_zero_iff hpattern, sub_eq_self]
  · rw [show spans = xs.map Block.span from hspans, List.pairwise_map]
    refine hapart.imp_of_mem ?_
    intro x y hx _ hxy
    have hpositive : 0 < x.length := (hwithin x hx).2.1
    change x.left + x.length - 1 < y.left
    omega
  · intro s hs
    rw [show spans = xs.map Block.span from hspans] at hs
    obtain ⟨x, hx, rfl⟩ := List.mem_map.mp hs
    obtain ⟨-, hpositive, hend⟩ := hwithin x hx
    change x.left ≤ x.left + x.length - 1 ∧ x.left + x.length - 1 < text.length
    omega
  · rw [hcovered]
    exact hsub
  · change 1 - (fit pattern text).ratio = _
    rw [List.nil_append] at hcount
    rw [hcovered, hcount, hratio]

/-- Of a word with two letters in the wrong order all but one letter is covered. -/
theorem score_measures_spans_misspelt :
    "tutorail".toList ≠ [] ∧
      let fitted := fit "tutorail".toList "docs/tutorial.md".toList
      let covered := fitted.spans.flatMap (Span.slice "docs/tutorial.md".toList)
      covered = "tutoril".toList ∧ covered.Sublist "tutorail".toList ∧
        fitted.spans.Pairwise (fun s s' => s.last < s'.start) ∧ 1 - fitted.ratio = 1 / 8 := by
  have hpattern : "tutorail".toList ≠ [] := by decide
  obtain ⟨-, -, -, hapart, -, hsub, hscore⟩ :=
    score_measures_spans hpattern "docs/tutorial.md".toList
  have hcovered : (fit "tutorail".toList "docs/tutorial.md".toList).spans.flatMap
      (Span.slice "docs/tutorial.md".toList) = "tutoril".toList := by decide +kernel
  refine ⟨hpattern, hcovered, hsub, hapart, ?_⟩
  have hcount : "tutoril".toList.length = 7 := by decide
  have hlength : "tutorail".toList.length = 8 := by decide
  have hshorter : min 8 "docs/tutorial.md".toList.length = 8 := by decide
  rw [hscore, hcovered, hcount, hlength, hshorter]
  norm_num

end Agreement

end LiveIndex.Matching
