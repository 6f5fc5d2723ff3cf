import SharpOutline.Proofs.Lexeme.CommentGaps
import SharpOutline.Proofs.Pattern.Fits

/-!
# Region markers

A region that is written between comments is recognised again: with the patterns and formats that
are chosen if nothing else is said, the comment that opens it gives its name back, and the comment
that closes it is no opening one and gives the name back as well (`marked_lines_recognised`).

The name may hold anything that can stand on a line and has no blanks at its ends, also what looks
like a placeholder or another marker. A pattern can fit a written line in several ways, which differ
in how they share out the blanks around the name; as these are trimmed, it does not matter which of
them is preferred. The result therefore holds for every engine that finds a pattern just where it
fits (`Pattern.FoundBy`), and not only for the one that the program runs with.
-/

namespace SharpOutline

/-! ## Sets of characters -/

namespace CharSet

theorem characterRank_lt (c : Char) : characterRank c.toNat < characterCount := by
  have hvalid : c.toNat < 0xD800 ∨ 0xDFFF < c.toNat ∧ c.toNat < 0x110000 := c.valid
  grind [characterRank, characterCount]

theorem holds_between {low high : Nat} (h : low ≤ high) (c : Char) :
    (between low high).holds c = true ↔
      low ≤ characterRank c.toNat ∧ characterRank c.toNat ≤ high := by
  have hlt := characterRank_lt c
  rw [between, dif_pos h]
  split <;> grind [holds, isInside]

theorem holds_single (c d : Char) : (single c).holds d = true ↔ d = c := by
  have hvalid : ∀ c : Char, c.toNat < 0xD800 ∨ 0xDFFF < c.toNat ∧ c.toNat < 0x110000 := Char.valid
  rw [single, range, holds_between le_rfl, ← Char.toNat_inj]
  grind [characterRank]

theorem holds_inLine (c : Char) : inLine.holds c = true ↔ c ≠ '\n' := by
  rw [inLine, holds_complement, Bool.not_eq_true', ← Bool.not_eq_true, holds_single]

theorem holds_unionAll (sets : List CharSet) (c : Char) :
    (unionAll sets).holds c = sets.any (·.holds c) := by
  suffices ∀ s : CharSet, (sets.foldl union s).holds c = (s.holds c || sets.any (·.holds c)) by
    rw [unionAll, this]
    simp [nothing, holds, isInside]
  induction sets with
  | nil => simp
  | cons s sets ih => simp [ih, Bool.or_assoc]

theorem holds_blank (c : Char) : blank.holds c = isBlank c := by
  have hranges : ∀ r ∈ blankRanges, r.1 ≤ r.2 ∧ r.2 < 0xD800 := by decide
  have hvalid : c.toNat < 0xD800 ∨ 0xDFFF < c.toNat ∧ c.toNat < 0x110000 := c.valid
  rw [blank, ofCodes, holds_unionAll, List.any_map, Bool.eq_iff_iff, isBlank_iff, List.any_eq_true]
  refine exists_congr fun r ↦ and_congr_right fun hr ↦ ?_
  have hr := hranges r hr
  rw [Function.comp_apply, holds_between (by grind [characterRank])]
  grind [characterRank]

end CharSet

/-! ## Lines with gaps -/

namespace Pattern

variable {t u v : Text} {x y : Nat × Marks} {l : List (Option Char)} {ps : List Pattern}

/-- From one place to another, with the same marks, a text is passed. -/
def Passes (t u : Text) (x y : Nat × Marks) : Prop :=
  t.drop x.1 = u ++ t.drop y.1 ∧ y = (x.1 + u.length, x.2)

theorem passes_nil : Passes t [] x y ↔ y = x := by
  rw [Passes]
  grind

theorem passes_append : Passes t (u ++ v) x y ↔ ∃ z, Passes t u x z ∧ Passes t v z y := by
  constructor
  · rintro ⟨hdrop, rfl⟩
    have hz : t.drop (x.1 + u.length) = v ++ t.drop (x.1 + (u ++ v).length) := by
      rw [← List.drop_drop, hdrop, List.append_assoc, List.drop_left]
    exact ⟨(x.1 + u.length, x.2), ⟨by rw [hdrop, hz, List.append_assoc], rfl⟩,
      hz, by simp [Nat.add_assoc]⟩
  · rintro ⟨_, ⟨hu, rfl⟩, hv, rfl⟩
    exact ⟨by rw [hu, hv, List.append_assoc], by simp [Nat.add_assoc]⟩

theorem fits_one {set : CharSet} :
    (one set).Fits t x y ↔ ∃ c, set.holds c = true ∧ Passes t [c] x y := by
  rw [Fits]
  constructor
  · rintro ⟨⟨c, hc, hset⟩, rfl⟩
    obtain ⟨hlt, rfl⟩ := List.getElem?_eq_some_iff.mp hc
    exact ⟨_, hset, List.drop_eq_getElem_cons hlt, rfl⟩
  · rintro ⟨c, hset, hdrop, rfl⟩
    have hc : (t.drop x.1)[0]? = some c := by rw [hdrop]; rfl
    exact ⟨⟨c, by simpa using hc, hset⟩, rfl⟩

theorem fits_repeated {set : CharSet} {greedy : Bool} :
    (repeated (one set) 0 none greedy).Fits t x y ↔
      ∃ u, (∀ c ∈ u, set.holds c = true) ∧ Passes t u x y := by
  have hrounds : ∀ n x, Rounds ((one set).Fits t) n x y ↔
      ∃ u : Text, u.length = n ∧ (∀ c ∈ u, set.holds c = true) ∧ Passes t u x y := by
    intro n
    induction n with
    | zero => simp [Rounds, passes_nil]
    | succ n ih =>
      intro x
      simp only [Rounds, ih, fits_one]
      constructor
      · rintro ⟨z, ⟨c, hc, hz⟩, u, rfl, hu, hy⟩
        exact ⟨c :: u, rfl, by simpa using ⟨hc, hu⟩, passes_append.mpr ⟨z, hz, hy⟩⟩
      · rintro ⟨_ | ⟨c, u⟩, hlen, hu, hy⟩
        · simp at hlen
        · obtain ⟨z, hz, hy⟩ := passes_append (u := [c]).mp hy
          rw [List.forall_mem_cons] at hu
          exact ⟨z, ⟨c, hu.1, hz⟩, u, by simpa using hlen, hu.2, hy⟩
  rw [Fits]
  simp [hrounds]

theorem fits_cons {p : Pattern} :
    (ofItems (p :: ps)).Fits t x y ↔ ∃ z, p.Fits t x z ∧ (ofItems ps).Fits t z y := by
  cases ps with
  | nil => simp [ofItems, Fits]
  | cons q ps => rfl

theorem fits_nil : (ofItems []).Fits t x y ↔ y = x := Iff.rfl

def blanks : Pattern := repeated (one CharSet.blank) 0 none true

theorem fits_blanks : blanks.Fits t x y ↔ ∃ u, (∀ c ∈ u, isBlank c = true) ∧ Passes t u x y := by
  simp [blanks, fits_repeated, CharSet.holds_blank]

/-- A character of a line, or a gap, where there may be blanks. -/
def ofPart : Option Char → Pattern
  | none => blanks
  | some c => one (.single c)

/-- The text is a line of these parts. -/
def IsLine : List (Option Char) → Text → Prop
  | [], u => u = []
  | none :: l, u => ∃ v w, u = v ++ w ∧ (∀ c ∈ v, isBlank c = true) ∧ IsLine l w
  | some c :: l, u => ∃ w, u = c :: w ∧ IsLine l w

theorem fits_line :
    (ofItems (l.map ofPart ++ ps)).Fits t x y ↔
      ∃ u z, IsLine l u ∧ Passes t u x z ∧ (ofItems ps).Fits t z y := by
  induction l generalizing x with
  | nil => exact ⟨fun h ↦ ⟨[], x, rfl, passes_nil.mpr rfl, h⟩,
      fun ⟨_, z, hu, hz, h⟩ ↦ passes_nil.mp (hu ▸ hz) ▸ h⟩
  | cons o l ih =>
    simp only [List.map_cons, List.cons_append, fits_cons, ih]
    cases o with
    | none =>
      simp only [ofPart, fits_blanks, IsLine]
      constructor
      · rintro ⟨z, ⟨v, hv, hz⟩, w, z', hw, hz', hy⟩
        exact ⟨v ++ w, z', ⟨v, w, rfl, hv, hw⟩, passes_append.mpr ⟨z, hz, hz'⟩, hy⟩
      · rintro ⟨_, z', ⟨v, w, rfl, hv, hw⟩, hz', hy⟩
        obtain ⟨z, hz, hz'⟩ := passes_append.mp hz'
        exact ⟨z, ⟨v, hv, hz⟩, w, z', hw, hz', hy⟩
    | some c =>
      simp only [ofPart, fits_one, CharSet.holds_single, IsLine]
      constructor
      · rintro ⟨z, ⟨_, rfl, hz⟩, w, z', hw, hz', hy⟩
        exact ⟨_ :: w, z', ⟨w, rfl, hw⟩, passes_append.mpr ⟨z, hz, hz'⟩, hy⟩
      · rintro ⟨_, z', ⟨w, rfl, hw⟩, hz', hy⟩
        obtain ⟨z, hz, hz'⟩ := passes_append (u := [c]).mp hz'
        exact ⟨z, ⟨c, rfl, hz⟩, w, z', hw, hz', hy⟩

/-! ## Names behind a line -/

/-- Nothing but these parts, then a name, and nothing after it: `^…(?P<Name>.*?)\s*$`. -/
def marker (l : List (Option Char)) : Pattern :=
  ofItems (anchor .textStart :: (l.map ofPart ++
    [group true (repeated (one CharSet.inLine) 0 none false), blanks, anchor .textEnd]))

/-- The text begins with a line of these parts, and another text is left. -/
def Leaves (l : List (Option Char)) (t u : Text) : Prop := ∃ v, t = v ++ u ∧ IsLine l v

theorem leaves_some {c d : Char} : Leaves (some c :: l) (d :: t) u ↔ d = c ∧ Leaves l t u := by
  simp only [Leaves, IsLine]
  grind

theorem leaves_gap {d : Char} : Leaves (none :: l) (d :: t) u ↔
    isBlank d = true ∧ Leaves (none :: l) t u ∨ Leaves l (d :: t) u := by
  constructor
  · rintro ⟨_, ht, v, w, rfl, hv, hw⟩
    rcases v with _ | ⟨c, v⟩
    · exact .inr ⟨w, ht, hw⟩
    · rw [List.forall_mem_cons] at hv
      obtain ⟨rfl, rfl⟩ := List.cons_eq_cons.mp ht
      exact .inl ⟨hv.1, v ++ w, rfl, v, w, rfl, hv.2, hw⟩
  · rintro (⟨hd, _, rfl, v, w, rfl, hv, hw⟩ | ⟨w, ht, hw⟩)
    · exact ⟨d :: (v ++ w), rfl, d :: v, w, rfl, List.forall_mem_cons.mpr ⟨hd, hv⟩, hw⟩
    · exact ⟨w, ht, [], w, rfl, by simp, hw⟩

theorem leaves_singleton : Leaves [none] t u ↔ ∃ v, t = v ++ u ∧ ∀ c ∈ v, isBlank c = true := by
  simp [Leaves, IsLine]

theorem fits_name : (group true (repeated (one CharSet.inLine) 0 none false)).Fits t x y ↔
    ∃ u, '\n' ∉ u ∧ t.drop x.1 = u ++ t.drop (x.1 + u.length) ∧
      y = (x.1 + u.length, ⟨some x.1, some (x.1, x.1 + u.length)⟩) := by
  rw [Fits, if_pos rfl]
  simp only [fits_repeated, CharSet.holds_inLine, Passes]
  constructor
  · rintro ⟨_, ⟨u, hu, hdrop, rfl⟩, rfl⟩
    exact ⟨u, fun h ↦ hu _ h rfl, hdrop, rfl⟩
  · rintro ⟨u, hu, hdrop, rfl⟩
    exact ⟨_, ⟨u, fun c hc h ↦ hu (h ▸ hc), hdrop, rfl⟩, rfl⟩

theorem fits_textEnd : (anchor .textEnd).Fits t x y ↔ t.drop x.1 = [] ∧ y = x := by
  simp [Fits, Anchor.holds, spotAt]

theorem fits_textStart : (anchor .textStart).Fits t x y ↔ t.drop x.1 = t ∧ y = x := by
  have hstart : (t.take x.1).getLast? = none ↔ t.drop x.1 = t := by
    have happend := List.take_append_drop x.1 t
    rw [List.getLast?_eq_none_iff]
    exact ⟨fun h ↦ by simpa [h] using happend, fun h ↦ by simpa [h] using happend⟩
  simp [Fits, Anchor.holds, spotAt, ← hstart]

/-- The pattern fits from the start of the text to its end. -/
theorem fits_marker {i : Nat} : (marker l).Fits t (i, {}) y ↔ t.drop i = t ∧ ∃ u v w, IsLine l u ∧
    '\n' ∉ v ∧ (∀ c ∈ w, isBlank c = true) ∧ t = u ++ (v ++ w) ∧
    y = (i + u.length + v.length + w.length,
      ⟨some (i + u.length), some (i + u.length, i + u.length + v.length)⟩) := by
  simp only [marker, fits_cons, fits_line, fits_name, fits_blanks, fits_textStart, fits_textEnd,
    fits_nil, Passes]
  constructor
  · rintro ⟨_, ⟨hstart, rfl⟩, u, _, hu, ⟨hline, rfl⟩, _, ⟨v, hv, hname, rfl⟩, _,
      ⟨w, hw, hdrop, rfl⟩, _, ⟨hend, rfl⟩, rfl⟩
    refine ⟨hstart, u, v, w, hu, hv, hw, ?_, rfl⟩
    simp only [hstart] at hline
    rw [hend] at hdrop
    rw [hline, hname, hdrop, List.append_nil]
  · rintro ⟨hstart, u, v, w, hu, hv, hw, ht, rfl⟩
    have hline : t.drop (i + u.length) = v ++ w := by
      rw [← List.drop_drop, hstart, ht, List.drop_left]
    have hname : t.drop (i + u.length + v.length) = w := by
      rw [← List.drop_drop, hline, List.drop_left]
    have hend : t.drop (i + u.length + v.length + w.length) = [] := by
      rw [← List.drop_drop, hname, List.drop_length]
    refine ⟨_, ⟨hstart, rfl⟩, u, _, hu, ⟨?_, rfl⟩, _, ⟨v, hv, ?_, rfl⟩, _, ⟨w, hw, ?_, rfl⟩,
      _, ⟨hend, rfl⟩, rfl⟩
    · rw [hstart, hline, ht]
    · rw [hline, hname]
    · rw [hname, hend, List.append_nil]

/-! ## Searches -/

/-- The search finds something exactly in the texts that the pattern fits somewhere, and gives the
name that is marked in such a fit. If there are several, it may be any of them. -/
structure FoundBy (p : Pattern) (search : NameSearch) : Prop where
  fits : ∀ {t name}, search t = some name →
    ∃ i j marks, p.Fits t (i, {}) (j, marks) ∧ marks.nameIn t = name
  isSome : ∀ {t i y}, i ≤ t.length → p.Fits t (i, {}) y → (search t).isSome = true

theorem foundBy_nameIn? (p : Pattern) : p.FoundBy p.nameIn? where
  fits h := by
    obtain ⟨marks, hmarks, hname⟩ := Option.map_eq_some_iff.mp h
    obtain ⟨i, j, hfits⟩ := fits_of_search hmarks
    exact ⟨i, j, marks, hfits, hname⟩
  isSome hi h := by
    rw [nameIn?, Option.isSome_map]
    exact isSome_search_of_fits hi h

section Markers

variable {search : NameSearch} (hfound : (marker l).FoundBy search)

include hfound

/-- However the pattern fits, the name stands behind the line, and nothing but blanks behind it. -/
theorem FoundBy.leaves {name : Text} (h : search t = some name) :
    ∃ v, Leaves l t (name ++ v) ∧ ∀ c ∈ v, isBlank c = true := by
  obtain ⟨i, j, m, hfits, hname⟩ := hfound.fits h
  obtain ⟨hstart, u, v, w, hu, -, hw, ht, hmarks⟩ := fits_marker.mp hfits
  obtain rfl : v = name := by
    rw [← hname, (Prod.mk.inj hmarks).2]
    have hdrop : t.drop (i + u.length) = v ++ w := by
      rw [← List.drop_drop, hstart, ht, List.drop_left]
    simp [Marks.nameIn, hdrop]
  exact ⟨w, ⟨u, ht, hu⟩, hw⟩

/-- The pattern fits if a name stands behind the line. -/
theorem FoundBy.isSome_of_leaves (ht : Leaves l t u) (hu : '\n' ∉ u) :
    (search t).isSome = true := by
  obtain ⟨v, rfl, hv⟩ := ht
  exact hfound.isSome (Nat.zero_le _)
    (fits_marker.mpr ⟨rfl, v, u, [], hv, hu, by simp, by simp, rfl⟩)

theorem FoundBy.nameIn?_eq_some
    (ht : ∀ v, Leaves l t v ↔ ∃ w, u = w ++ v ∧ ∀ c ∈ w, isBlank c = true) (hu : '\n' ∉ u) :
    RegionMarkers.nameIn? search t = some (Text.trim u) := by
  have hsome := hfound.isSome_of_leaves ((ht u).mpr ⟨[], rfl, by simp⟩) hu
  obtain ⟨name, hname⟩ := Option.isSome_iff_exists.mp hsome
  obtain ⟨v, hleaves, hv⟩ := hfound.leaves hname
  obtain ⟨w, rfl, hw⟩ := (ht _).mp hleaves
  rw [RegionMarkers.nameIn?, hname, Option.map_some, Text.trim_append_of_blank hw, Text.trim,
    Text.trim, Text.trimEnd_append_of_blank hv]

theorem FoundBy.nameIn?_eq_none (ht : ∀ v, ¬Leaves l t v) :
    RegionMarkers.nameIn? search t = none := by
  rw [RegionMarkers.nameIn?, Option.map_eq_none_iff, Option.eq_none_iff_forall_not_mem]
  intro name hname
  obtain ⟨v, hleaves, -⟩ := hfound.leaves hname
  exact ht _ hleaves

end Markers

end Pattern

/-! ## Default patterns -/

open Pattern

/-- The parts of the comments that mark regions: `\s*\$\(\s*…\s*\)\s*` around the keyword. -/
def markerLine (keyword : Text) : List (Option Char) :=
  [none, some '$', some '(', none] ++ keyword.map some ++ [none, some ')', none]

/-- The engine accepts the two default patterns and searches for what they say. -/
structure Engine.ReadsDefaults (engine : Engine) : Prop where
  opening : ∃ search, engine ({} : MarkerSettings).opening = some search ∧
    (marker (markerLine "Begin".toList)).FoundBy search
  closing : ∃ search, engine ({} : MarkerSettings).closing = some search ∧
    (marker (markerLine "End".toList)).FoundBy search

theorem Pattern.readsDefaults_engine : engine.ReadsDefaults := by
  have hopening : ofText? ({} : MarkerSettings).opening =
      some (marker (markerLine "Begin".toList)) := by decide +kernel
  have hclosing : ofText? ({} : MarkerSettings).closing =
      some (marker (markerLine "End".toList)) := by decide +kernel
  exact ⟨⟨_, by rw [engine, hopening]; rfl, foundBy_nameIn? _⟩,
    ⟨_, by rw [engine, hclosing]; rfl, foundBy_nameIn? _⟩⟩

section Lines

variable (u v : Text)

theorem isBlank_marks : isBlank ' ' = true ∧ isBlank '$' = false ∧ isBlank 'B' = false ∧
    isBlank 'E' = false ∧ isBlank ')' = false := by decide

theorem leaves_opening : Leaves (markerLine "Begin".toList) (" $(Begin)".toList ++ u) v ↔
    ∃ w, u = w ++ v ∧ ∀ c ∈ w, isBlank c = true := by
  simp [markerLine, leaves_gap, leaves_some, leaves_singleton, isBlank_marks]

theorem leaves_closing : Leaves (markerLine "End".toList) (" $(End)".toList ++ u) v ↔
    ∃ w, u = w ++ v ∧ ∀ c ∈ w, isBlank c = true := by
  simp [markerLine, leaves_gap, leaves_some, leaves_singleton, isBlank_marks]

theorem not_leaves_opening : ¬Leaves (markerLine "Begin".toList) (" $(End)".toList ++ u) v := by
  simp [markerLine, leaves_gap, leaves_some, isBlank_marks]

end Lines

/-! ## Written markers -/

/-- In comments, a region of some name stands between these two, the placeholder in the name being
left alone. -/
theorem trimEnd_regionTexts {s : LayoutSettings} {isDirective : Bool}
    (hstyle : s.regionStyle = .commentMarker ∨ s.regionStyle = .preserve ∧ isDirective = false)
    (hopening : s.openingFormat = ({} : LayoutSettings).openingFormat)
    (hclosing : s.closingFormat = ({} : LayoutSettings).closingFormat) (name : Text) :
    Text.trimEnd (regionTexts s isDirective name).1 =
        "//".toList ++ (" $(Begin)".toList ++ Text.trimEnd (' ' :: name)) ∧
      Text.trimEnd (regionTexts s isDirective name).2 =
        "//".toList ++ (" $(End)".toList ++ Text.trimEnd (' ' :: name)) := by
  have hregion : regionTexts s isDirective name =
      ("// $(Begin".toList ++ ')' :: ' ' :: name, "// $(End".toList ++ ')' :: ' ' :: name) := by
    rcases hstyle with h | ⟨h, rfl⟩ <;>
      simp [regionTexts, h, hopening, hclosing, Text.replace, Text.replaceFrom, placeholder]
  rw [hregion]
  exact ⟨Text.trimEnd_append_cons rfl .., Text.trimEnd_append_cons rfl ..⟩

/-- With the default patterns and formats, the comments that are written around a region are
recognised, each in its role only, and give the name of the region, whichever engine searches for
the patterns. -/
theorem marked_lines_recognised {engine : Engine} {s : LayoutSettings} {isDirective : Bool}
    {name : Text} (hengine : engine.ReadsDefaults)
    (hstyle : s.regionStyle = .commentMarker ∨ s.regionStyle = .preserve ∧ isDirective = false)
    (hopening : s.openingFormat = ({} : LayoutSettings).openingFormat)
    (hclosing : s.closingFormat = ({} : LayoutSettings).closingFormat)
    (hline : '\n' ∉ name) (hname : Text.trim name = name) (depth : Nat) (k : ElementId)
    (headers applied children : List Outline) (otherwise : Option Outline) :
    ∃ markers opening inner closing,
      (Outline.node k name (.region isDirective) headers applied children otherwise).lines s depth =
        ⟨depth, "//".toList ++ opening⟩ :: (inner ++ [⟨depth, "//".toList ++ closing⟩]) ∧
      RegionMarkers.ofSettings engine {} = .ok markers ∧
      markers.opened? opening = some name ∧
      markers.opened? closing = none ∧ markers.closed? closing = some name := by
  obtain ⟨u, hu, hblank⟩ := Text.exists_eq_trimEnd_append (' ' :: name)
  have hnone : '\n' ∉ Text.trimEnd (' ' :: name) := by
    intro hmem
    have hmem : '\n' ∈ ' ' :: name := hu ▸ List.mem_append_left u hmem
    exact hline ((List.mem_cons.mp hmem).resolve_left (by decide))
  have htrim : Text.trim (Text.trimEnd (' ' :: name)) = name := by
    calc Text.trim (Text.trimEnd (' ' :: name))
      _ = Text.trim (Text.trimEnd (' ' :: name) ++ u) := by
        rw [Text.trim, Text.trim, Text.trimEnd_append_of_blank hblank]
      _ = name := by rw [← hu, Text.trim_cons rfl, hname]
  obtain ⟨hfirst, hlast⟩ := trimEnd_regionTexts hstyle hopening hclosing name
  obtain ⟨⟨begins, hbegins, hbegin⟩, ⟨ends, hends, hend⟩⟩ := hengine
  have hmarkers : RegionMarkers.ofSettings engine {} = .ok ⟨begins, ends⟩ := by
    rw [RegionMarkers.ofSettings, RegionMarkers.pattern, hbegins, RegionMarkers.pattern, hends]
    rfl
  refine ⟨_, " $(Begin)".toList ++ Text.trimEnd (' ' :: name), _,
    " $(End)".toList ++ Text.trimEnd (' ' :: name), by rw [Outline.lines, hfirst, hlast],
    hmarkers, ?_, hbegin.nameIn?_eq_none (not_leaves_opening _), ?_⟩
  · rw [RegionMarkers.opened?, hbegin.nameIn?_eq_some (leaves_opening _) hnone, htrim]
  · rw [RegionMarkers.closed?, hend.nameIn?_eq_some (leaves_closing _) hnone, htrim]

theorem marked_lines_recognised_confusing :
    ∃ markers opening inner closing,
      (Outline.node 0 "\x7b0\x7d $(End) x".toList (.region true) [] [] [] none).lines
          { regionStyle := .commentMarker } 1 =
        ⟨1, "//".toList ++ opening⟩ :: (inner ++ [⟨1, "//".toList ++ closing⟩]) ∧
      RegionMarkers.ofSettings Pattern.engine {} = .ok markers ∧
      markers.opened? opening = some "\x7b0\x7d $(End) x".toList ∧
      markers.opened? closing = none ∧ markers.closed? closing = some "\x7b0\x7d $(End) x".toList :=
  marked_lines_recognised (s := { regionStyle := .commentMarker }) readsDefaults_engine (.inl rfl)
    rfl rfl (by decide) (by decide) ..

end SharpOutline
