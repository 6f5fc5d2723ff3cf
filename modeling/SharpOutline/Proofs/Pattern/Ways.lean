import Mathlib.Data.Finset.Card
import SharpOutline.Text.Pattern.Search

/-!
# Ways through a program

What a program can do in a text is said without any order of preference: a way goes from one
instruction to another, over characters and past conditions, and it ends where the pattern fits
(`Ends`). The search follows all ways together and carries out each instruction at most once at a
place. This loses no way altogether, although it may lose some of the marks: an instruction that was
carried out is `Settled`, and a front in which all of them are can stand for every way that comes
through it.

Main statements: what a search finds are the marks at the end of a way that starts somewhere
(`isFound_of_search`), and it finds something if there is such a way (`isSome_search`).
-/

namespace SharpOutline

namespace Instruction

/-- The instructions that may come next without a character being consumed. -/
def targets (spot : Spot) : Instruction → List Nat
  | one _ _ => []
  | check a next => if a.holds spot.before spot.after then [next] else []
  | fork first second => [first, second]
  | jump next => [next]
  | openName next => [next]
  | closeName next => [next]
  | accept => []

/-- The marks after an instruction that was carried out at a place. -/
def mark (offset : Nat) : Instruction → Marks → Marks
  | openName _, m => { m with began := some offset }
  | closeName _, m => { m with span := m.began.map (·, offset) }
  | _, m => m

/-- A way has to wait here for the next character. -/
def waits : Instruction → Bool
  | one _ _ => true
  | accept => true
  | _ => false

theorem targets_of_waits {x : Instruction} (h : x.waits = true) (spot : Spot) :
    x.targets spot = [] := by
  cases x <;> simp_all [waits, targets]

end Instruction

namespace Pattern

variable {program : Array Instruction} {t : Text} {spot : Spot} {f g : Front} {x y : Thread}
  {m last : Marks} {n i s : Nat} {P : Thread → Prop}

/-- The spot in a text with so many characters before it. -/
def spotAt (t : Text) (i : Nat) : Spot := ⟨i, (t.take i).getLast?, t[i]?⟩

/-- A way that is at an instruction comes within `n` further ones to the end of the pattern, with
the marks `last`. -/
inductive Ends (program : Array Instruction) (t : Text) (last : Marks) : Nat → Nat → Thread → Prop
  | accept {n i s : Nat} (h : program[s]? = some .accept) : Ends program t last n i ⟨s, last⟩
  | turn {n i s next : Nat} {x : Instruction} {m : Marks} (h : program[s]? = some x)
      (hnext : next ∈ x.targets (spotAt t i)) (hend : Ends program t last n i ⟨next, x.mark i m⟩) :
      Ends program t last (n + 1) i ⟨s, m⟩
  | pass {n i s next : Nat} {set : CharSet} {c : Char} {m : Marks}
      (h : program[s]? = some (.one set next)) (hc : t[i]? = some c) (hset : set.holds c = true)
      (hend : Ends program t last n (i + 1) ⟨next, m⟩) : Ends program t last (n + 1) i ⟨s, m⟩

/-! ## Following one way -/

theorem follow_of_visited (h : f.visited.contains s = true) (m : Marks) (n : Nat) :
    follow program spot n f s m = f := by
  cases n <;> simp [follow, h]

/-- The front after an instruction has been taken note of. -/
def visit (f : Front) (s : Nat) : Front := { f with visited := f.visited.insert s }

theorem follow_of_none (h : program[s]? = none) (hs : f.visited.contains s = false) (m : Marks)
    (n : Nat) : follow program spot (n + 1) f s m = visit f s := by
  simp [follow, h, hs, visit]

theorem follow_of_some {x : Instruction} (h : program[s]? = some x)
    (hs : f.visited.contains s = false) (m : Marks) (n : Nat) :
    follow program spot (n + 1) f s m = if x.waits then (visit f s).arrive ⟨s, m⟩ else
      (x.targets spot).foldl
        (fun g next ↦ follow program spot n g next (x.mark spot.offset m)) (visit f s) := by
  cases x with
  | check a next =>
    by_cases ha : a.holds spot.before spot.after = true <;>
      simp [follow, h, hs, visit, ha, Instruction.waits, Instruction.targets, Instruction.mark]
  | _ => simp [follow, h, hs, visit, Instruction.waits, Instruction.targets, Instruction.mark]

/-! ## Settled instructions -/

/-- All that can come next has been carried out, and a way that has to wait has arrived. -/
def Settled (program : Array Instruction) (spot : Spot) (f : Front) (s : Nat) : Prop :=
  ∀ x, program[s]? = some x → (∀ next ∈ x.targets spot, f.visited.contains next = true) ∧
    (x.waits = true → ∃ m, ⟨s, m⟩ ∈ f.arrived)

/-- Everything that was carried out is settled. -/
def IsSettled (program : Array Instruction) (spot : Spot) (f : Front) : Prop :=
  ∀ s, f.visited.contains s = true → Settled program spot f s

/-- A front has grown into another one: what was carried out meanwhile is settled, and the ways that
have arrived have a property. -/
structure Extends (program : Array Instruction) (spot : Spot) (P : Thread → Prop) (f g : Front) :
    Prop where
  visited : ∀ s, f.visited.contains s = true → g.visited.contains s = true
  arrived : ∀ y ∈ f.arrived, y ∈ g.arrived
  added : ∀ y ∈ g.arrived, y ∈ f.arrived ∨ P y
  settled : ∀ s, g.visited.contains s = true →
    f.visited.contains s = true ∨ Settled program spot g s

namespace Extends

theorem refl (f : Front) : Extends program spot P f f :=
  ⟨fun _ ↦ id, fun _ ↦ id, fun _ ↦ .inl, fun _ ↦ .inl⟩

theorem keeps (h : Extends program spot P f g) (hs : Settled program spot f s) :
    Settled program spot g s := by
  intro x hx
  refine ⟨fun next hnext ↦ h.visited _ ((hs x hx).1 next hnext), fun hwaits ↦ ?_⟩
  obtain ⟨m, hm⟩ := (hs x hx).2 hwaits
  exact ⟨m, h.arrived _ hm⟩

theorem trans {k : Front} (h : Extends program spot P f g) (h' : Extends program spot P g k) :
    Extends program spot P f k where
  visited s hs := h'.visited s (h.visited s hs)
  arrived y hy := h'.arrived y (h.arrived y hy)
  added y hy := (h'.added y hy).elim (h.added y) .inr
  settled s hs := (h'.settled s hs).elim (fun hg ↦ (h.settled s hg).imp_right h'.keeps) .inr

theorem isSettled (h : Extends program spot P f g) (hf : IsSettled program spot f) :
    IsSettled program spot g :=
  fun s hs ↦ (h.settled s hs).elim (fun hs ↦ h.keeps (hf s hs)) id

theorem forall_arrived (h : Extends program spot P f g) (hf : ∀ y ∈ f.arrived, P y) :
    ∀ y ∈ g.arrived, P y :=
  fun y hy ↦ (h.added y hy).elim (hf y) id

theorem of_visit (h : Extends program spot P (visit f s) g) (hs : Settled program spot g s) :
    Extends program spot P f g where
  visited k hk := h.visited k (by simp [visit, hk])
  arrived := h.arrived
  added := h.added
  settled k hk := by
    rcases h.settled k hk with hk | hk
    · simp only [visit, Visited.contains_insert, Bool.or_eq_true, beq_iff_eq] at hk
      exact hk.imp_right fun (hk : s = k) ↦ hk ▸ hs
    · exact .inr hk

end Extends

/-- The number of instructions that have not been carried out yet. -/
def unvisited (program : Array Instruction) (f : Front) : Nat :=
  ((Finset.range program.size).filter fun s ↦ f.visited.contains s = false).card

theorem Extends.unvisited_le (h : Extends program spot P f g) :
    unvisited program g ≤ unvisited program f := by
  refine Finset.card_le_card (Finset.monotone_filter_right _ fun s _ hs ↦ ?_)
  rw [← Bool.not_eq_true] at hs ⊢
  exact fun hf ↦ hs (h.visited s hf)

theorem unvisited_visit_lt (hs : s < program.size) (hf : f.visited.contains s = false) :
    unvisited program (visit f s) < unvisited program f := by
  refine Finset.card_lt_card ⟨Finset.monotone_filter_right _ fun k _ hk ↦ ?_, fun h ↦ ?_⟩
  · simp_all [visit]
  · have := h (Finset.mem_filter.mpr ⟨Finset.mem_range.mpr hs, hf⟩)
    simp [visit] at this

/-- A property goes over from a way to those that go on from it. -/
def Carries (program : Array Instruction) (spot : Spot) (P : Thread → Prop) : Prop :=
  ∀ ⦃s x m next⦄, program[s]? = some x → next ∈ x.targets spot → P ⟨s, m⟩ →
    P ⟨next, x.mark spot.offset m⟩

/-- With enough fuel, a way is followed until all that was carried out is settled. The fuel is
enough if it exceeds the number of instructions left, as each of them is carried out once. -/
theorem extends_follow (hP : Carries program spot P) (hs : P ⟨s, m⟩)
    (hn : unvisited program f < n) :
    Extends program spot P f (follow program spot n f s m) ∧
      (follow program spot n f s m).visited.contains s = true := by
  induction n generalizing f s m with
  | zero => exact absurd hn (Nat.not_lt_zero _)
  | succ n ih =>
    rcases hvisited : f.visited.contains s with _ | _
    · rcases hx : program[s]? with _ | x
      · rw [follow_of_none hx hvisited]
        exact ⟨.of_visit (.refl _) fun x hx' ↦ by simp [hx] at hx', by simp [visit]⟩
      have hsettled : ∀ {g}, (∀ next ∈ x.targets spot, g.visited.contains next = true) →
          (x.waits = true → ∃ m, ⟨s, m⟩ ∈ g.arrived) → Settled program spot g s := by
        intro g hnext hwaits x' hx'
        obtain rfl : x = x' := by simpa [hx] using hx'
        exact ⟨hnext, hwaits⟩
      rw [follow_of_some hx hvisited]
      split
      · rename_i hwaits
        refine ⟨.of_visit ⟨fun _ ↦ id, fun y ↦ List.mem_cons_of_mem _, ?_, fun _ ↦ .inl⟩ ?_, ?_⟩
        · exact fun y hy ↦ (List.mem_cons.mp hy).elim (fun hy ↦ .inr (hy ▸ hs)) .inl
        · exact hsettled (by simp [Instruction.targets_of_waits hwaits])
            fun _ ↦ ⟨m, List.mem_cons_self⟩
        · simp [Front.arrive, visit]
      · rename_i hwaits
        -- The ways that go on are followed one after the other, with less and less to be visited.
        have hfold : ∀ (l : List Nat) (g : Front), (∀ next ∈ l, next ∈ x.targets spot) →
            unvisited program g < n →
            Extends program spot P g (l.foldl (fun g next ↦
              follow program spot n g next (x.mark spot.offset m)) g) ∧
            ∀ next ∈ l, (l.foldl (fun g next ↦
              follow program spot n g next (x.mark spot.offset m)) g).visited.contains next := by
          intro l
          induction l with
          | nil => exact fun g _ _ ↦ ⟨.refl g, by simp⟩
          | cons next l ihl =>
            intro g hl hg
            rw [List.forall_mem_cons] at hl
            obtain ⟨hfirst, hnext⟩ := ih (hP hx hl.1 hs) hg
            obtain ⟨hrest, hl⟩ := ihl _ hl.2 (hfirst.unvisited_le.trans_lt hg)
            exact ⟨hfirst.trans hrest, List.forall_mem_cons.mpr ⟨hrest.visited _ hnext, hl⟩⟩
        have hless := unvisited_visit_lt (Array.getElem?_eq_some_iff.mp hx).1 hvisited
        obtain ⟨hext, htargets⟩ := hfold (x.targets spot) (visit f s) (fun _ ↦ id) (by omega)
        exact ⟨.of_visit hext (hsettled htargets fun h ↦ absurd h hwaits),
          hext.visited s (by simp [visit])⟩
    · rw [follow_of_visited hvisited]
      exact ⟨.refl f, hvisited⟩

theorem extends_enter (hP : Carries program spot P) (hs : P ⟨s, m⟩) (f : Front) :
    Extends program spot P f (enter program spot f s m) ∧
      (enter program spot f s m).visited.contains s = true := by
  refine extends_follow hP hs (Nat.lt_succ_of_le ?_)
  simpa [unvisited] using Finset.card_filter_le (Finset.range program.size)
    fun s ↦ f.visited.contains s = false

/-! ## Moving over a character -/

/-- Unless the pattern fits, every way that can consume the character is in the new front. -/
theorem extends_moveOver {c : Char} (ts : List Thread) (hP : Carries program spot P)
    (hts : ∀ y ∈ ts, ∀ set next, program[y.state]? = some (.one set next) → set.holds c = true →
      P ⟨next, y.marks⟩) (f : Front) :
    Extends program spot P f (moveOver program spot c f ts).1 ∧
      (∀ last ∈ (moveOver program spot c f ts).2,
        ∃ y ∈ ts, y.marks = last ∧ program[y.state]? = some .accept) ∧
      ((moveOver program spot c f ts).2.isSome = true ∨
        ∀ y ∈ ts, program[y.state]? ≠ some .accept ∧
          ∀ set next, program[y.state]? = some (.one set next) → set.holds c = true →
            (moveOver program spot c f ts).1.visited.contains next = true) := by
  induction ts generalizing f with
  | nil => exact ⟨.refl f, by simp [moveOver], .inr (by simp)⟩
  | cons y ts ih =>
    rw [List.forall_mem_cons] at hts
    rw [moveOver]
    split
    · rename_i hy
      exact ⟨.refl f, by simpa using .inl hy, .inl rfl⟩
    · rename_i set next hy
      split
      · rename_i hset
        obtain ⟨henter, hnext⟩ := extends_enter hP (hts.1 set next hy hset) f
        obtain ⟨hrest, hlast, hmoved⟩ := ih hts.2 (enter program spot f next y.marks)
        refine ⟨henter.trans hrest, by grind,
          hmoved.imp_right fun hmoved ↦ List.forall_mem_cons.mpr ⟨?_, hmoved⟩⟩
        simpa [hy] using fun _ ↦ hrest.visited _ hnext
      · obtain ⟨hrest, hlast, hmoved⟩ := ih hts.2 f
        refine ⟨hrest, by grind,
          hmoved.imp_right fun hmoved ↦ List.forall_mem_cons.mpr ⟨?_, hmoved⟩⟩
        simp_all
    · obtain ⟨hrest, hlast, hmoved⟩ := ih hts.2 f
      refine ⟨hrest, by grind, hmoved.imp_right fun hmoved ↦ List.forall_mem_cons.mpr ⟨?_, hmoved⟩⟩
      simp_all

/-- A way through a settled front either ends at this place or waits there for the next
character. -/
theorem IsSettled.arrives (hf : IsSettled program (spotAt t i) f) (hend : Ends program t last n i x)
    (hx : f.visited.contains x.state = true) :
    (∃ y ∈ f.arrived, program[y.state]? = some .accept) ∨
      ∃ y ∈ f.arrived, ∃ set next c m k, program[y.state]? = some (.one set next) ∧
        t[i]? = some c ∧ set.holds c = true ∧ Ends program t last k (i + 1) ⟨next, m⟩ := by
  induction hend with
  | accept h =>
    obtain ⟨m, hm⟩ := (hf _ hx _ h).2 rfl
    exact .inl ⟨_, hm, h⟩
  | turn h hnext hend ih => exact ih hf ((hf _ hx _ h).1 _ hnext)
  | pass h hc hset hend =>
    obtain ⟨m, hm⟩ := (hf _ hx _ h).2 rfl
    exact .inr ⟨_, hm, _, _, _, _, _, h, hc, hset, hend⟩

/-! ## Searching -/

/-- The marks at the end of a way that starts somewhere. -/
def IsFound (program : Array Instruction) (t : Text) (last : Marks) : Prop :=
  ∃ i n, i ≤ t.length ∧ Ends program t last n i ⟨0, {}⟩

/-- A way at a place can only end as one that starts somewhere does. -/
def IsOwn (program : Array Instruction) (t : Text) (i : Nat) (y : Thread) : Prop :=
  ∀ n last, Ends program t last n i y → IsFound program t last

theorem carries_isOwn : Carries program (spotAt t i) (IsOwn program t i) :=
  fun _ _ _ _ hx hnext h n last hend ↦ h (n + 1) last (.turn hx hnext hend)

/-- What is known of a search at a place: nothing but ends of ways has been found, and of the ways
that started before a bound none is lost. -/
structure Sound (program : Array Instruction) (t : Text) (i bound : Nat) (found : Option Marks)
    (f : Front) : Prop where
  settled : IsSettled program (spotAt t i) f
  own : ∀ y ∈ f.arrived, IsOwn program t i y
  ends : ∀ last ∈ found, IsFound program t last
  kept : ∀ j < bound, ∀ n last, Ends program t last n j ⟨0, {}⟩ → found.isSome = true ∨
    ∃ k x, Ends program t last k i x ∧ f.visited.contains x.state = true

section Search

variable {found : Option Marks}

theorem Sound.startAt (h : Sound program t i i found f) (hi : i ≤ t.length) :
    Sound program t i (i + 1) found (startAt program (spotAt t i) found f) := by
  rw [Pattern.startAt]
  split
  · exact ⟨h.settled, h.own, h.ends, fun _ _ _ _ _ ↦ .inl ‹_›⟩
  · obtain ⟨hext, hstart⟩ := extends_enter (s := 0) (m := {}) carries_isOwn
      (fun n last hend ↦ ⟨i, n, hi, hend⟩) f
    refine ⟨hext.isSettled h.settled, hext.forall_arrived h.own, h.ends, ?_⟩
    intro j hj n last hend
    rcases Nat.lt_succ_iff_lt_or_eq.mp hj with hj | rfl
    · refine (h.kept j hj n last hend).imp_right ?_
      rintro ⟨k, x, hx, hvisited⟩
      exact ⟨k, x, hx, hext.visited _ hvisited⟩
    · exact .inr ⟨n, _, hend, hstart⟩

theorem Sound.moveOver {c : Char} (h : Sound program t i (i + 1) found f) (hc : t[i]? = some c) :
    Sound program t (i + 1) (i + 1)
      ((moveOver program (spotAt t (i + 1)) c {} f.threads).2.or found)
      (moveOver program (spotAt t (i + 1)) c {} f.threads).1 := by
  have hthreads : ∀ {y}, y ∈ f.threads → y ∈ f.arrived := List.mem_reverse.mp
  obtain ⟨hext, hlast, hmoved⟩ := extends_moveOver f.threads carries_isOwn
    (fun y hy set next hone hset n last hend ↦
      h.own y (hthreads hy) _ last (.pass hone hc hset hend)) {}
  refine ⟨hext.isSettled (by simp [IsSettled]), hext.forall_arrived (by simp), ?_, ?_⟩
  · intro last hor
    obtain hor | ⟨-, hor⟩ := Option.or_eq_some_iff.mp hor
    · obtain ⟨y, hy, rfl, haccept⟩ := hlast last hor
      exact h.own y (hthreads hy) 0 _ (.accept haccept)
    · exact h.ends last hor
  · intro j hj n last hend
    rcases hmoved with hmoved | hmoved
    · exact .inl (by simp [hmoved])
    obtain hfound | ⟨k, x, hx, hvisited⟩ := h.kept j hj n last hend
    · exact .inl (by simp [hfound])
    obtain ⟨y, hy, haccept⟩ | ⟨y, hy, set, next, d, m, k, hone, hd, hset, hnext⟩ :=
      h.settled.arrives hx hvisited
    · exact absurd haccept (hmoved y (List.mem_reverse.mpr hy)).1
    · obtain rfl : c = d := by simpa [hc] using hd
      exact .inr ⟨k, _, hnext, (hmoved y (List.mem_reverse.mpr hy)).2 set next hone hset⟩

theorem Sound.accepted (h : Sound program t t.length (t.length + 1) found f) :
    (∀ last ∈ (accepted? program f.threads).or found, IsFound program t last) ∧
      ∀ last, IsFound program t last → ((accepted? program f.threads).or found).isSome = true := by
  refine ⟨fun last hor ↦ ?_, ?_⟩
  · obtain hor | ⟨-, hor⟩ := Option.or_eq_some_iff.mp hor
    · obtain ⟨y, hy, rfl⟩ := Option.map_eq_some_iff.mp hor
      have haccept := List.find?_some hy
      exact h.own y (List.mem_reverse.mp (List.mem_of_find?_eq_some hy)) 0 _
        (.accept (by simpa using haccept))
    · exact h.ends last hor
  · rintro last ⟨j, n, hj, hend⟩
    obtain hfound | ⟨k, x, hx, hvisited⟩ := h.kept j (by omega) n last hend
    · simp [hfound]
    obtain ⟨y, hy, haccept⟩ | ⟨_, _, _, _, _, _, _, _, hc, -⟩ := h.settled.arrives hx hvisited
    · have : (accepted? program f.threads).isSome = true := by
        simpa [accepted?, Front.threads] using ⟨y, hy, haccept⟩
      simp [this]
    · simp at hc

theorem spotAt_append (done rest : Text) :
    spotAt (done ++ rest) done.length = ⟨done.length, done.getLast?, rest.head?⟩ := by
  simp [spotAt, List.head?_eq_getElem?, List.getElem?_append_right]

theorem Sound.searchFrom (rest done : Text)
    (h : Sound program (done ++ rest) done.length done.length found f) :
    (∀ last ∈ searchFrom program found f done.length done.getLast? rest,
      IsFound program (done ++ rest) last) ∧
    ∀ last, IsFound program (done ++ rest) last →
      (searchFrom program found f done.length done.getLast? rest).isSome = true := by
  induction rest generalizing done found f with
  | nil =>
    have hstart := h.startAt (by simp)
    rw [spotAt_append] at hstart
    rw [List.append_nil] at *
    exact hstart.accepted
  | cons c rest ih =>
    have hmove := (h.startAt (by simp)).moveOver (c := c) (by simp)
    have hspot := spotAt_append (done ++ [c]) rest
    simp only [List.append_assoc, List.singleton_append, List.length_append, List.length_singleton,
      List.getLast?_concat] at hspot
    rw [spotAt_append, hspot] at hmove
    simpa [Pattern.searchFrom] using ih (done ++ [c]) (by simpa using hmove)

end Search

/-- A search finds the marks at the end of a way. -/
theorem isFound_of_search {p : Pattern} (h : p.search t = some last) :
    IsFound p.program t last :=
  (Sound.searchFrom t [] ⟨by simp [IsSettled], by simp, by simp, by simp⟩).1 last h

/-- A search finds something if some way ends. -/
theorem isSome_search {p : Pattern} (h : IsFound p.program t last) : (p.search t).isSome = true :=
  (Sound.searchFrom t [] ⟨by simp [IsSettled], by simp, by simp, by simp⟩).2 last h

end Pattern

end SharpOutline
