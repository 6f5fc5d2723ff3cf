import Mathlib.Logic.Relation
import SharpOutline.Proofs.Pattern.Ways

/-!
# What a pattern fits

A pattern relates the places of a text, each with the marks that a way has when it is there. This
relation follows the pattern and knows no order of preference (`Fits`). The ways through the code of
a pattern lead from its place to its exit just as the pattern says (`takes_code`), whatever comes
after the exit.

Main statements: a search finds the marks of a fit (`fits_of_search`), and it finds something if the
pattern fits somewhere (`isSome_search_of_fits`).
-/

namespace SharpOutline.Pattern

open Instruction

/-! ## Fits -/

/-- So many steps in a relation. -/
def Rounds {α : Type*} (R : α → α → Prop) : Nat → α → α → Prop
  | 0, x, y => y = x
  | n + 1, x, y => ∃ z, R x z ∧ Rounds R n z y

variable {a : Instruction} {code' : List Instruction} {i more fewer : Nat} {greedy : Bool}
  {p : Pattern}

theorem rounds_add {α : Type*} {R : α → α → Prop} {m n : Nat} {x y : α} :
    Rounds R (m + n) x y ↔ ∃ z, Rounds R m x z ∧ Rounds R n z y := by
  induction m generalizing x with
  | zero => simp [Rounds]
  | succ m ih =>
    simp only [Nat.succ_add, Rounds, ih]
    exact ⟨fun ⟨u, hu, z, hz, hy⟩ ↦ ⟨z, ⟨u, hu, hz⟩, hy⟩,
      fun ⟨z, ⟨u, hu, hz⟩, hy⟩ ↦ ⟨u, hu, z, hz, hy⟩⟩

/-- The pattern can lead from one place to another one, with the marks there. If more rounds of a
repetition are asked for than are allowed, there are as many as are asked for. -/
def Fits (t : Text) : Pattern → Nat × Marks → Nat × Marks → Prop
  | empty, x, y => y = x
  | one set, x, y => (∃ c, t[x.1]? = some c ∧ set.holds c = true) ∧ y = (x.1 + 1, x.2)
  | anchor a, x, y => a.holds (spotAt t x.1).before (spotAt t x.1).after = true ∧ y = x
  | seq first second, x, y => ∃ z, first.Fits t x z ∧ second.Fits t z y
  | either first second, x, y => first.Fits t x y ∨ second.Fits t x y
  | repeated body least most _, x, y =>
    ∃ n, least ≤ n ∧ (∀ k ∈ most, n ≤ max least k) ∧ Rounds (body.Fits t) n x y
  | group naming body, x, y =>
    if naming then
      ∃ z, body.Fits t (x.1, { x.2 with began := some x.1 }) z ∧
        y = (z.1, { z.2 with span := z.2.began.map (·, z.1) })
    else body.Fits t x y

/-! ## Code in a program -/

variable {program : Array Instruction} {t : Text} {place exit : Nat} {code : List Instruction}
  {last : Marks} {n : Nat} {x y : Nat × Marks} {R S : Nat × Marks → Nat × Marks → Prop}

/-- The code stands at a place of the program. -/
def StandsAt (program : Array Instruction) (place : Nat) (code : List Instruction) : Prop :=
  code <+: program.toList.drop place

theorem StandsAt.head (h : StandsAt program place (a :: code)) :
    program[place]? = some a := by
  obtain ⟨rest, hrest⟩ := h
  have : (program.toList.drop place)[0]? = some a := by rw [← hrest]; rfl
  simpa using this

theorem StandsAt.left (h : StandsAt program place (code ++ code')) :
    StandsAt program place code :=
  (List.prefix_append ..).trans h

theorem StandsAt.right (h : StandsAt program place (code ++ code'))
    (hlen : place + code.length = n) : StandsAt program n code' := by
  obtain ⟨rest, hrest⟩ := h
  refine ⟨rest, ?_⟩
  rw [← hlen, ← List.drop_drop, ← hrest]
  simp

theorem StandsAt.tail (h : StandsAt program place (a :: code)) :
    StandsAt program (place + 1) code :=
  StandsAt.right (show StandsAt program place ([a] ++ code) from h) rfl

/-- The ways from a place that end are those that come to the exit as a relation says, and end from
there on. -/
structure Takes (program : Array Instruction) (t : Text) (place exit : Nat)
    (R : Nat × Marks → Nat × Marks → Prop) : Prop where
  sound : ∀ {n last x}, Ends program t last n x.1 ⟨place, x.2⟩ →
    ∃ k ≤ n, ∃ y, R x y ∧ Ends program t last k y.1 ⟨exit, y.2⟩
  complete : ∀ {n last x y}, R x y → Ends program t last n y.1 ⟨exit, y.2⟩ →
    ∃ k, Ends program t last k x.1 ⟨place, x.2⟩

theorem takes_eq : Takes program t exit exit (fun x y ↦ y = x) :=
  ⟨fun {n _ x} h ↦ ⟨n, le_rfl, x, rfl, h⟩, fun {n _ _ _} hxy h ↦ ⟨n, hxy ▸ h⟩⟩

theorem Takes.congr (h : Takes program t place exit R) (hR : ∀ x y, R x y ↔ S x y) :
    Takes program t place exit S := by
  obtain rfl : R = S := funext₂ fun x y ↦ propext (hR x y)
  exact h

theorem Takes.comp {middle : Nat} (h : Takes program t place middle R)
    (h' : Takes program t middle exit S) :
    Takes program t place exit (fun x y ↦ ∃ z, R x z ∧ S z y) where
  sound hend := by
    obtain ⟨k, hk, z, hz, hend⟩ := h.sound hend
    obtain ⟨k', hk', y, hy, hend⟩ := h'.sound hend
    exact ⟨k', hk'.trans hk, y, ⟨z, hz, hy⟩, hend⟩
  complete := by
    rintro n last x y ⟨z, hz, hy⟩ hend
    obtain ⟨k, hend⟩ := h'.complete hy hend
    exact h.complete hz hend

/-! ## Single instructions -/

theorem Ends.cases_of_some {s : Nat} {m : Marks} (h : program[s]? = some a) (ha : a ≠ .accept)
    (hend : Ends program t last n i ⟨s, m⟩) :
    ∃ k, n = k + 1 ∧
      ((∃ next ∈ a.targets (spotAt t i), Ends program t last k i ⟨next, a.mark i m⟩) ∨
        ∃ set next c, a = .one set next ∧ t[i]? = some c ∧ set.holds c = true ∧
          Ends program t last k (i + 1) ⟨next, m⟩) := by
  cases hend with
  | accept h' => simp_all
  | turn h' hnext hend =>
    obtain rfl := Option.some_inj.mp (h.symm.trans h')
    exact ⟨_, rfl, .inl ⟨_, hnext, hend⟩⟩
  | pass h' hc hset hend =>
    obtain rfl := Option.some_inj.mp (h.symm.trans h')
    exact ⟨_, rfl, .inr ⟨_, _, _, rfl, hc, hset, hend⟩⟩

theorem takes_one {set : CharSet} (h : program[place]? = some (.one set exit)) :
    Takes program t place exit ((one set).Fits t) where
  sound hend := by
    obtain ⟨k, rfl, ⟨_, hnext, -⟩ | ⟨_, _, c, ha, hc, hset, hend⟩⟩ := hend.cases_of_some h nofun
    · simp [targets] at hnext
    · cases ha
      exact ⟨k, k.le_succ, _, ⟨⟨c, hc, hset⟩, rfl⟩, hend⟩
  complete := by
    rintro n last x _ ⟨⟨c, hc, hset⟩, rfl⟩ hend
    exact ⟨n + 1, .pass h hc hset hend⟩

theorem takes_turn (h : program[place]? = some a) (ha : a.waits = false)
    (hexit : ∀ spot, ∀ next ∈ a.targets spot, next = exit) :
    Takes program t place exit
      (fun x y ↦ exit ∈ a.targets (spotAt t x.1) ∧ y = (x.1, a.mark x.1 x.2)) where
  sound hend := by
    obtain ⟨k, rfl, ⟨next, hnext, hend⟩ | ⟨_, _, _, rfl, -⟩⟩ :=
      hend.cases_of_some h fun h ↦ by simp [h, waits] at ha
    · obtain rfl := hexit _ _ hnext
      exact ⟨k, k.le_succ, _, ⟨hnext, rfl⟩, hend⟩
    · simp [waits] at ha
  complete := by
    rintro n last x _ ⟨hnext, rfl⟩ hend
    exact ⟨n + 1, .turn h hnext hend⟩

theorem ends_again (h : program[place]? = some (.again greedy more fewer)) :
    Ends program t last n x.1 ⟨place, x.2⟩ ↔ ∃ k, n = k + 1 ∧
      (Ends program t last k x.1 ⟨more, x.2⟩ ∨ Ends program t last k x.1 ⟨fewer, x.2⟩) := by
  have hmark : (again greedy more fewer).mark x.1 x.2 = x.2 := by cases greedy <;> rfl
  have htargets : ∀ next, next ∈ (again greedy more fewer).targets (spotAt t x.1) ↔
      next = more ∨ next = fewer := by
    cases greedy <;> simp [again, targets, or_comm]
  constructor
  · intro hend
    obtain ⟨k, rfl, ⟨next, hnext, hend⟩ | ⟨_, _, _, ha, -⟩⟩ :=
      hend.cases_of_some h (by cases greedy <;> rintro ⟨⟩)
    · rw [hmark] at hend
      obtain rfl | rfl := (htargets next).mp hnext
      · exact ⟨k, rfl, .inl hend⟩
      · exact ⟨k, rfl, .inr hend⟩
    · cases greedy <;> cases ha
  · rintro ⟨k, rfl, hend | hend⟩
    · exact .turn h ((htargets more).mpr (.inl rfl)) (hmark.symm ▸ hend)
    · exact .turn h ((htargets fewer).mpr (.inr rfl)) (hmark.symm ▸ hend)

theorem takes_again (greedy : Bool) (h : program[place]? = some (.again greedy more fewer))
    (hmore : Takes program t more exit R) (hfewer : Takes program t fewer exit S) :
    Takes program t place exit (fun x y ↦ R x y ∨ S x y) where
  sound hend := by
    obtain ⟨k, rfl, hend | hend⟩ := (ends_again h).mp hend
    · obtain ⟨k', hk, y, hy, hend⟩ := hmore.sound hend
      exact ⟨k', hk.trans k.le_succ, y, .inl hy, hend⟩
    · obtain ⟨k', hk, y, hy, hend⟩ := hfewer.sound hend
      exact ⟨k', hk.trans k.le_succ, y, .inr hy, hend⟩
  complete := by
    rintro n last x y (hy | hy) hend
    · obtain ⟨k, hend⟩ := hmore.complete hy hend
      exact ⟨k + 1, (ends_again h).mpr ⟨k, rfl, .inl hend⟩⟩
    · obtain ⟨k, hend⟩ := hfewer.complete hy hend
      exact ⟨k + 1, (ends_again h).mpr ⟨k, rfl, .inr hend⟩⟩

/-! ## Repetitions -/

/-- A fork between a body that comes back to it and the exit. Every round takes at least the fork,
so that the ways become shorter. -/
theorem takes_rounds {first : Nat} (h : program[place]? = some (.again greedy first exit))
    (hbody : Takes program t first place R) :
    Takes program t place exit (fun x y ↦ ∃ n, Rounds R n x y) where
  sound {n last x} hend := by
    induction n using Nat.strong_induction_on generalizing x with
    | h n ih =>
      obtain ⟨k, rfl, hend | hend⟩ := (ends_again h).mp hend
      · obtain ⟨k', hk, z, hz, hend⟩ := hbody.sound hend
        obtain ⟨k'', hk', y, ⟨r, hr⟩, hend⟩ := ih k' (by omega) hend
        exact ⟨k'', by omega, y, ⟨r + 1, z, hz, hr⟩, hend⟩
      · exact ⟨k, k.le_succ, x, ⟨0, rfl⟩, hend⟩
  complete := by
    rintro n last x y ⟨r, hr⟩ hend
    induction r generalizing x with
    | zero => exact ⟨n + 1, (ends_again h).mpr ⟨n, rfl, .inr (hr ▸ hend)⟩⟩
    | succ r ih =>
      obtain ⟨z, hz, hr⟩ := hr
      obtain ⟨k, hend⟩ := ih hr
      obtain ⟨k', hend⟩ := hbody.complete hz hend
      exact ⟨k' + 1, (ends_again h).mpr ⟨k', rfl, .inl hend⟩⟩

section Repetitions

variable {body : Code} {width : Nat} (hwidth : ∀ place exit, (body place exit).length = width)
  (hbody : ∀ {place exit}, StandsAt program place (body place exit) → Takes program t place exit R)

include hwidth hbody

variable {greedy : Bool}

theorem takes_copiesThen {after : Nat → List Instruction}
    (hafter : ∀ {place}, StandsAt program place (after place) → Takes program t place exit S)
    (h : StandsAt program place (Code.copiesThen body width after n place)) :
    Takes program t place exit (fun x y ↦ ∃ z, Rounds R n x z ∧ S z y) := by
  induction n generalizing place with
  | zero => exact (hafter h).congr (by simp [Rounds])
  | succ n ih =>
    refine ((hbody h.left).comp (ih (h.right (by rw [hwidth])))).congr fun x y ↦ ?_
    exact ⟨fun ⟨u, hu, z, hz, hy⟩ ↦ ⟨z, ⟨u, hu, hz⟩, hy⟩,
      fun ⟨z, ⟨u, hu, hz⟩, hy⟩ ↦ ⟨u, hu, z, hz, hy⟩⟩

theorem takes_upTo (h : StandsAt program place (Code.upTo body width greedy exit n place)) :
    Takes program t place exit (fun x y ↦ ∃ k ≤ n, Rounds R k x y) := by
  induction n generalizing place with
  | zero =>
    refine (takes_turn h.head rfl (by simp [targets])).congr fun x y ↦ ?_
    simp [targets, mark, Rounds]
  | succ n ih =>
    have hmore := (hbody h.tail.left).comp (ih (h.tail.right (by rw [hwidth])))
    refine (takes_again _ h.head hmore takes_eq).congr fun x y ↦ ⟨?_, ?_⟩
    · rintro (⟨z, hz, k, hk, hy⟩ | rfl)
      · exact ⟨k + 1, by omega, z, hz, hy⟩
      · exact ⟨0, Nat.zero_le _, rfl⟩
    · rintro ⟨_ | k, hk, hy⟩
      · exact .inr hy
      · obtain ⟨z, hz, hy⟩ := hy
        exact .inl ⟨z, hz, k, by omega, hy⟩

theorem takes_loop (h : StandsAt program place (Code.loop body width greedy exit place)) :
    Takes program t place exit (fun x y ↦ ∃ n, Rounds R (n + 1) x y) := by
  have hfirst := hbody h.left
  refine (hfirst.comp (takes_rounds (h.right (by rw [hwidth])).head hfirst)).congr fun x y ↦ ?_
  exact ⟨fun ⟨z, hz, n, hn⟩ ↦ ⟨n, z, hz, hn⟩, fun ⟨n, z, hz, hn⟩ ↦ ⟨z, hz, n, hn⟩⟩

theorem takes_repeatedCode {isNullable : Bool} {least : Nat} {most : Option Nat}
    (h : StandsAt program place (repeatedCode body width isNullable greedy place exit least most)) :
    Takes program t place exit (fun x y ↦
      ∃ n, least ≤ n ∧ (∀ k ∈ most, n ≤ max least k) ∧ Rounds R n x y) := by
  rcases most with _ | most
  · rcases least with _ | least
    · suffices Takes program t place exit (fun x y ↦ ∃ n, Rounds R n x y) from
        this.congr (by simp)
      rw [repeatedCode, Code.optionalLoop] at h
      split at h
      · exact (takes_again _ h.head (takes_loop hwidth hbody h.tail) takes_eq).congr fun x y ↦
          or_comm.trans (Nat.or_exists_add_one (p := fun n ↦ Rounds R n x y))
      · exact takes_rounds h.head (hbody h.tail)
    · refine (takes_copiesThen hwidth hbody (takes_loop hwidth hbody) h).congr fun x y ↦ ⟨?_, ?_⟩
      · rintro ⟨z, hz, n, hn⟩
        exact ⟨least + (n + 1), by omega, by simp, rounds_add.mpr ⟨z, hz, hn⟩⟩
      · rintro ⟨n, hn, -, hy⟩
        obtain ⟨k, rfl⟩ : ∃ k, n = least + (k + 1) := ⟨n - (least + 1), by omega⟩
        obtain ⟨z, hz, hy⟩ := rounds_add.mp hy
        exact ⟨z, hz, k, hy⟩
  · refine (takes_copiesThen hwidth hbody (takes_upTo hwidth hbody) h).congr fun x y ↦ ⟨?_, ?_⟩
    · rintro ⟨z, hz, k, hk, hy⟩
      exact ⟨least + k, by omega, by grind, rounds_add.mpr ⟨z, hz, hy⟩⟩
    · rintro ⟨n, hn, hmost, hy⟩
      obtain ⟨k, rfl⟩ := Nat.exists_eq_add_of_le hn
      obtain ⟨z, hz, hy⟩ := rounds_add.mp hy
      have hk := hmost most rfl
      exact ⟨z, hz, k, by omega, hy⟩

end Repetitions

/-! ## Patterns -/

theorem takes_code (p : Pattern) (h : StandsAt program place (p.code place exit)) :
    Takes program t place exit (p.Fits t) := by
  induction p generalizing place exit with
  | empty =>
    refine (takes_turn h.head rfl (by simp [targets])).congr fun x y ↦ ?_
    simp [targets, mark, Fits]
  | one set => exact takes_one h.head
  | anchor a =>
    refine (takes_turn h.head rfl (by simp [targets])).congr fun x y ↦ ?_
    simp [targets, mark, Fits]
  | seq first second ih₁ ih₂ => exact (ih₁ h.left).comp (ih₂ (h.right (by rw [length_code])))
  | either first second ih₁ ih₂ =>
    exact takes_again true h.head (ih₁ h.tail.left) (ih₂ (h.tail.right (by rw [length_code])))
  | repeated body least most greedy ih => exact takes_repeatedCode body.length_code ih h
  | group naming body ih =>
    rw [code] at h
    cases naming with
    | false => exact ih h
    | true =>
      have hclose := (h.tail.right (by rw [length_code])).head
      refine (((takes_turn h.head rfl fun _ _ ↦ List.mem_singleton.mp).comp (ih h.tail.left)).comp
        (takes_turn hclose rfl fun _ _ ↦ List.mem_singleton.mp)).congr fun x y ↦ ?_
      simp [targets, mark, Fits]

theorem takes_program (p : Pattern) : Takes p.program t 0 p.size (p.Fits t) :=
  takes_code p ⟨[.accept], by simp [program]⟩

theorem program_size (p : Pattern) : p.program[p.size]? = some .accept := by
  rw [program, List.getElem?_toArray, List.getElem?_append_right (length_code ..).le, length_code,
    Nat.sub_self]
  rfl

/-- A search finds the marks of a fit. -/
theorem fits_of_search (h : p.search t = some last) :
    ∃ i j, p.Fits t (i, {}) (j, last) := by
  obtain ⟨i, n, -, hend⟩ := isFound_of_search h
  obtain ⟨k, -, ⟨j, m⟩, hfits, hend⟩ := p.takes_program.sound (x := (i, {})) hend
  have haccept := p.program_size
  cases hend with
  | accept => exact ⟨i, j, hfits⟩
  | turn hnext htargets =>
    obtain rfl := Option.some_inj.mp (haccept.symm.trans hnext)
    simp [targets] at htargets
  | pass hone => simp [haccept] at hone

/-- A search finds something if the pattern fits somewhere. -/
theorem isSome_search_of_fits (hi : i ≤ t.length) (h : p.Fits t (i, {}) y) :
    (p.search t).isSome = true := by
  obtain ⟨n, hend⟩ := p.takes_program.complete (n := 0) h (.accept p.program_size)
  exact isSome_search ⟨i, n, hi, hend⟩

end SharpOutline.Pattern
