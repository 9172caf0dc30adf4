import LiveIndex.Matching.Finder
import LiveIndex.Proofs.Index.Alone
import LiveIndex.Proofs.Matching.Fitting
import LiveIndex.Proofs.Text.Casing

/-! Where the places that a finder names lie in the values that it names them for. Places are
counted in the form in which texts are compared, and a lower-case form can be longer than its text
and can depend on what is around it; so a place is right only where neither is the case. -/

namespace LiveIndex.Matching

namespace Finder

variable {f : Finder} {query : String} {m : KeyMatch} {s : Span}

/-- A match that comes with the score of an entry for a query, or with a hit of a search. -/
inductive Finds (f : Finder) (query : String) (m : KeyMatch) : Prop
  | scored (e : Entry) (hm : m ∈ (f.score query e).2)
  | searched (limit : Option Int) (hit : Hit) (hhit : hit ∈ f.search query limit)
      (found : List KeyMatch) (hfound : hit.found = some found) (hm : m ∈ found)

theorem spans_of_mem_scorePattern {p : List Char} {e : Entry} (hm : m ∈ (f.scorePattern p e).2) :
    m.spans = (fit p (f.normalize m.value).toList).spans := by
  obtain ⟨fitted, hfitted, rfl⟩ := List.mem_map.mp hm
  obtain ⟨key, -, rfl⟩ := List.mem_map.mp (List.mem_filter.mp hfitted).1
  rfl

theorem mem_of_mem_takeLimit {α : Type} {limit : Int} {xs : List α} {x : α}
    (h : x ∈ takeLimit limit xs) : x ∈ xs := by
  rw [takeLimit] at h
  split at h
  · exact List.mem_of_mem_take h
  · exact List.mem_of_mem_take h

/-- Whatever is found is found by fitting the pattern to the normalized value. -/
theorem Finds.spans_eq (h : f.Finds query m) :
    f.pattern query ≠ [] ∧
      m.spans = (fit (f.pattern query) (f.normalize m.value).toList).spans := by
  cases h with
  | scored e hm =>
    rw [score] at hm
    split at hm
    · exact absurd hm List.not_mem_nil
    · next hpattern =>
      exact ⟨fun h => hpattern (List.isEmpty_iff.mpr h), spans_of_mem_scorePattern hm⟩
  | searched limit hit hhit found hfound hm =>
    rw [search] at hhit
    split at hhit
    · exact absurd hhit List.not_mem_nil
    · next hpattern =>
      refine ⟨fun h => hpattern (List.isEmpty_iff.mpr h), ?_⟩
      -- The limit and the ranking only choose among the hits.
      have hranked : hit ∈ ranked (f.entries.values.filterMap fun e =>
          if (f.scorePattern (f.pattern query) e).1 ≤ f.threshold then
            some (Hit.mk e (f.scorePattern (f.pattern query) e).1
              (some (f.scorePattern (f.pattern query) e).2))
          else none) := by
        cases limit with
        | none => exact hhit
        | some n => exact mem_of_mem_takeLimit hhit
      obtain ⟨e, -, he⟩ := List.mem_filterMap.mp (List.mem_mergeSort.mp hranked)
      split at he
      · obtain rfl := Option.some.inj he
        obtain rfl := Option.some.inj hfound
        exact spans_of_mem_scorePattern hm
      · cases he

/-- Up to a place before which the value has no dotted capital I, the normalized value is no longer
than the value. -/
theorem lt_length_of_lt_normalize {value : String} {place : Nat}
    (hplain : f.caseSensitive = true ∨ 'İ' ∉ value.toList.take (place + 1))
    (hplace : place < (f.normalize value).toList.length) : place < value.length := by
  rw [normalize] at hplace
  split at hplace
  · rwa [String.length_toList] at hplace
  · next hcase =>
    by_contra hbeyond
    have hall : value.toList.take (place + 1) = value.toList := by
      apply List.take_of_length_le
      rw [String.length_toList]
      omega
    rw [hall] at hplain
    rw [Text.length_lower (hplain.resolve_left hcase)] at hplace
    exact hbeyond hplace

/-- A run of a value has its own normal form at its own place, if no dotted capital I stands up to
its end and no capital sigma in it. -/
theorem normalize_slice {value : String} (hin : s.start + s.length ≤ value.length)
    (hdotted : f.caseSensitive = true ∨ 'İ' ∉ value.toList.take (s.start + s.length))
    (hsigma : f.caseSensitive = true ∨ 'Σ' ∉ s.slice value.toList) :
    (f.normalize (String.ofList (s.slice value.toList))).toList =
      s.slice (f.normalize value).toList := by
  rw [normalize, normalize]
  split
  · rw [String.toList_ofList]
  · next hcase =>
    have hbefore : (value.toList.take s.start).length = s.start := by
      rw [List.length_take, String.length_toList]
      omega
    have hrun : (s.slice value.toList).length = s.length := by
      rw [Span.slice, List.length_take, List.length_drop, String.length_toList]
      omega
    have hupto : value.toList.take s.start ++ s.slice value.toList =
        value.toList.take (s.start + s.length) := List.take_add.symm
    have hwhole : value.toList.take s.start ++ s.slice value.toList ++
        value.toList.drop (s.start + s.length) = value.toList := by
      rw [hupto, List.take_append_drop]
    have hnone := hdotted.resolve_left hcase
    rw [← hupto, List.mem_append, not_or] at hnone
    have hslice := Text.slice_lowerFrom hnone.1 hnone.2 (hsigma.resolve_left hcase)
      (value.toList.drop (s.start + s.length))
    rw [hwhole, hbefore, hrun] at hslice
    rw [Text.toList_lower, Text.toList_lower, String.toList_ofList, ← hslice, Span.slice]

/-- A range that is found lies within the value that it is named for, if the finder minds the case
or no dotted capital I stands in the value up to the end of the range. If the normalized value holds
the normalized query, then what stands at the range is the query once it is normalized, if moreover
the finder minds the case or no capital sigma stands there. -/
theorem range_in_value (hm : f.Finds query m) (hs : s ∈ m.spans)
    (hplain : f.caseSensitive = true ∨ 'İ' ∉ m.value.toList.take (s.last + 1)) :
    s.start ≤ s.last ∧ s.last < m.value.length ∧
      ((f.normalize (Text.strip query)).toList <:+: (f.normalize m.value).toList →
        (f.caseSensitive = true ∨ 'Σ' ∉ s.slice m.value.toList) →
        f.normalize (String.ofList (s.slice m.value.toList)) =
          f.normalize (Text.strip query)) := by
  obtain ⟨hpattern, hspans⟩ := hm.spans_eq
  obtain ⟨xs, hblocks, hlaid, -⟩ := fit_eq hpattern (f.normalize m.value).toList
  obtain ⟨x, hx, rfl⟩ : ∃ x ∈ xs, x.span = s := by
    rw [hspans, hblocks] at hs
    exact List.mem_map.mp hs
  obtain ⟨-, hpositive, hend⟩ := hlaid.ordered.2 x hx
  have hlast : x.span.last + 1 = x.span.start + x.span.length :=
    Nat.sub_add_cancel (Nat.add_pos_right x.left hpositive)
  have hnormal : x.span.last < (f.normalize m.value).toList.length := by
    change x.left + x.length - 1 < _
    omega
  have hin : x.span.last < m.value.length := lt_length_of_lt_normalize hplain hnormal
  refine ⟨by change x.left ≤ x.left + x.length - 1; omega, hin, ?_⟩
  intro hoccurs hsigma
  rw [hlast] at hplain
  obtain ⟨before, after, htext, hfit⟩ := fit_of_occurs hpattern hoccurs
  have hspan : x.span = ⟨before.length, (f.pattern query).length⟩ := by
    rw [hspans, hfit] at hs
    exact List.mem_singleton.mp hs
  apply String.toList_inj.mp
  rw [normalize_slice (by omega) hplain hsigma, hspan, Span.slice, htext, List.append_assoc,
    List.drop_left, List.take_left]
  rfl

/-- A file at the top of a root. -/
def topEntry (name : String) : Entry :=
  Index.oldEntry ("/r/" ++ name) name name .file

/-- A finder that does not mind the case. -/
def plainFinder : Finder :=
  ⟨defaultKeys, defaultThreshold, false, .empty⟩

/-- A match in the name of a file, where what follows it has a capital sigma and a dotted capital
I. -/
def greekMatch : KeyMatch :=
  ⟨.name, "ΑΒΓ ΣİX", [⟨1, 2⟩]⟩

theorem range_in_value_greek :
    plainFinder.Finds "βγ" greekMatch ∧ 'İ' ∉ greekMatch.value.toList.take 3 ∧
      2 < greekMatch.value.length ∧
      plainFinder.normalize "ΒΓ" = plainFinder.normalize (Text.strip "βγ") := by
  have hfinds : plainFinder.Finds "βγ" greekMatch :=
    .scored (topEntry "ΑΒΓ ΣİX") (by decide +kernel)
  have hspan : (⟨1, 2⟩ : Span) ∈ greekMatch.spans := List.mem_cons_self
  have hplain : 'İ' ∉ greekMatch.value.toList.take 3 := by decide
  obtain ⟨-, hin, hslice⟩ := range_in_value hfinds hspan (.inr hplain)
  have hoccurs : (plainFinder.normalize (Text.strip "βγ")).toList <:+:
      (plainFinder.normalize greekMatch.value).toList := by decide +kernel
  have hsigma : 'Σ' ∉ Span.slice greekMatch.value.toList ⟨1, 2⟩ := by decide
  have hrun : String.ofList (Span.slice greekMatch.value.toList ⟨1, 2⟩) = "ΒΓ" := by decide
  rw [hrun] at hslice
  exact ⟨hfinds, hplain, hin, hslice hoccurs (.inr hsigma)⟩

/-- The dotted capital I becomes two characters, so what comes after it is found beyond the end of
the value. A capital sigma has another form at the end of a word, so what is found before a letter
is not the query when it stands alone. -/
theorem range_astray :
    (plainFinder.Finds "x" ⟨.name, "İx", [⟨2, 1⟩]⟩ ∧ ¬ (⟨2, 1⟩ : Span).last < "İx".length) ∧
      plainFinder.Finds "ασ" ⟨.name, "ΑΣΒ", [⟨0, 2⟩]⟩ ∧
      (plainFinder.normalize "ασ").toList <:+: (plainFinder.normalize "ΑΣΒ").toList ∧
      plainFinder.normalize (String.ofList (Span.slice "ΑΣΒ".toList ⟨0, 2⟩)) ≠
        plainFinder.normalize "ασ" := by
  refine ⟨⟨?_, by decide⟩, ?_, by decide +kernel, by decide +kernel⟩
  · exact .scored (topEntry "İx") (by decide +kernel)
  · exact .scored (topEntry "ΑΣΒ") (by decide +kernel)

end Finder

end LiveIndex.Matching
