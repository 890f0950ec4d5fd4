import Mathlib.Data.Set.Function
import Residual.Proofs.Automaton.BreadthFirst
import Residual.Proofs.Automaton.Product

/-!
This module contains the isomorphism of automata. States correspond to each other if a common word
leads to them, so two automata whose states are numbered in breadth-first order are isomorphic only
if they agree.
-/

namespace Residual

namespace Automaton

variable {a b : Automaton} {p p' : StatePair} {s d : StateId} {c : Char} {u w : List Char}

section Matched

structure Matched (a b : Automaton) : Prop where
  alphabet_eq : a.alphabet = b.alphabet
  left_iff_right : ∀ p p', a.Meets b p → a.Meets b p' → (p.left = p'.left ↔ p.right = p'.right)
  accepting_eq : ∀ p, a.Meets b p → a.accepting p.left = b.accepting p.right

theorem Meets.symm (h : a.Meets b p) : b.Meets a ⟨p.right, p.left⟩ := by
  obtain ⟨w, hl, hr⟩ := h
  exact ⟨w, hr, hl⟩

theorem Matched.symm (h : a.Matched b) : b.Matched a where
  alphabet_eq := h.alphabet_eq.symm
  left_iff_right _ _ hp hp' := (h.left_iff_right _ _ hp.symm hp'.symm).symm
  accepting_eq _ hp := (h.accepting_eq _ hp.symm).symm

theorem exists_meets (h : a.alphabet = b.alphabet) (hw : a.run initial w = .ok s) :
    ∃ d, b.run initial w = .ok d ∧ a.Meets b ⟨s, d⟩ := by
  have hmem := exists_run_iff.1 ⟨s, hw⟩
  rw [h] at hmem
  obtain ⟨d, hd⟩ := exists_run_iff.2 hmem
  exact ⟨d, hd, w, hw, hd⟩

theorem Matched.trans {c : Automaton} (h : a.Matched b) (h' : b.Matched c) : a.Matched c := by
  have hmiddle : ∀ p, a.Meets c p → ∃ d, a.Meets b ⟨p.left, d⟩ ∧ b.Meets c ⟨d, p.right⟩ := by
    rintro p ⟨w, hl, hr⟩
    obtain ⟨d, hd, hmeets⟩ := exists_meets h.alphabet_eq hl
    exact ⟨d, hmeets, w, hd, hr⟩
  refine ⟨h.alphabet_eq.trans h'.alphabet_eq, ?_, ?_⟩
  · intro p p' hp hp'
    obtain ⟨d, hl, hr⟩ := hmiddle p hp
    obtain ⟨d', hl', hr'⟩ := hmiddle p' hp'
    exact (h.left_iff_right _ _ hl hl').trans (h'.left_iff_right _ _ hr hr')
  · intro p hp
    obtain ⟨d, hl, hr⟩ := hmiddle p hp
    exact (h.accepting_eq _ hl).trans (h'.accepting_eq _ hr)

theorem Meets.successor (h : a.alphabet = b.alphabet) (hp : a.Meets b p) {k : Nat} {s' d' : StateId}
    (hs : a.successor? p.left k = some s') (hd : b.successor? p.right k = some d') :
    a.Meets b ⟨s', d'⟩ := by
  obtain ⟨w, hl, hr⟩ := hp
  obtain ⟨c, hc⟩ := exists_index (lt_of_successor? hs).2
  refine ⟨w ++ [c], run_snoc hl (step_of_successor? hc hs), run_snoc hr ?_⟩
  exact step_of_successor? (h ▸ hc) hd

end Matched

section Pairing

theorem Partners.meet_of_new {m : Partners} (hl : m.left.getD p.left none = none)
    (hr : m.right.getD p.right none = none) : m.meet p = some {
      left := m.left.setIfInBounds p.left (some p.right)
      right := m.right.setIfInBounds p.right (some p.left) } := by
  rw [meet, hl, hr]

theorem Partners.meet_cases {m m' : Partners} (h : m.meet p = some m') :
    (m.left.getD p.left none = none ∧ m.right.getD p.right none = none) ∨
      m.left.getD p.left none = some p.right ∧ m' = m := by
  unfold meet at h
  split at h
  next hl hr => exact .inl ⟨hl, hr⟩
  next d s hl hr =>
    split at h
    next heq => exact .inr ⟨heq.1 ▸ hl, (Option.some.inj h).symm⟩
    · contradiction
  · contradiction

/--
The partners in a pairing whose worklist is `q`: two states are partners if their pair has left, and
the two tables are inverse to each other.
-/
structure Paired (a b : Automaton) (q : Worklist StatePair) (m : Partners) : Prop where
  explored : (a.pairGraph b).Explored [⟨initial, initial⟩] q
  size_left : m.left.size = a.numStates
  size_right : m.right.size = b.numStates
  left_iff : ∀ s d, m.left.getD s none = some d ↔ q.HasLeft ⟨s, d⟩
  inverse : ∀ s d, m.left.getD s none = some d ↔ m.right.getD d none = some s
  accepting_eq : ∀ p, q.HasLeft p → a.accepting p.left = b.accepting p.right

theorem Paired.right_iff {q : Worklist StatePair} {m : Partners} (h : Paired a b q m)
    (d s : StateId) : m.right.getD d none = some s ↔ q.HasLeft ⟨s, d⟩ :=
  (h.inverse s d).symm.trans (h.left_iff s d)

theorem getD_replicate_none (n : Nat) (s : StateId) :
    (Array.replicate n (none : Option StateId)).getD s none = none := by
  rw [Array.getD_eq_getD_getElem?, Array.getElem?_replicate]
  split <;> rfl

theorem paired_start (a b : Automaton) :
    Paired a b (Worklist.empty.pushAll [⟨initial, initial⟩]) (.empty a.numStates b.numStates) := by
  have hnone := fun p => Worklist.not_hasLeft_roots [StatePair.mk initial initial] p
  refine ⟨Region.Graph.explored_roots _ _, Array.size_replicate, Array.size_replicate, ?_, ?_, ?_⟩
  · intro s d
    rw [Partners.empty, getD_replicate_none]
    exact iff_of_false nofun (hnone _)
  · intro s d
    rw [Partners.empty, getD_replicate_none, getD_replicate_none]
    exact iff_of_false nofun nofun
  · intro p hp
    exact absurd hp (hnone p)

theorem getD_setIfInBounds_iff {t : Array (Option StateId)} {q r : StateId → StateId → Prop}
    (ht : ∀ x y, t.getD x none = some y ↔ q x y) (hs : s < t.size) (hnone : t.getD s none = none)
    (hr : ∀ x y, r x y ↔ q x y ∨ (x = s ∧ y = d)) (x y : StateId) :
    (t.setIfInBounds s (some d)).getD x none = some y ↔ r x y := by
  rw [hr, getD_setIfInBounds, ← ht]
  split
  next heq =>
    obtain ⟨rfl, _⟩ := heq
    rw [hnone, Option.some.injEq]
    simp [eq_comm]
  next hne => exact (or_iff_left fun heq => hne ⟨heq.1.symm, hs⟩).symm

theorem mk_eq_iff : StatePair.mk s d = p ↔ s = p.left ∧ d = p.right := by
  obtain ⟨l, r⟩ := p
  rw [StatePair.mk.injEq]

theorem Paired.step (h : a.alphabet = b.alphabet) {q q' : Worklist StatePair} {m m' : Partners}
    {next : List StatePair} (hq : Paired a b q m) (hp : q.pop = some (p, q'))
    (hstep : (a.pairing b).step m p = .ok (m', next)) : Paired a b (q'.pushAll next) m' := by
  have hmem := (meets_of_explored h hq.explored p (Worklist.mem_seen_of_pop hp)).mem_region
  have hleft : ∀ x, (q'.pushAll next).HasLeft x ↔ q.HasLeft x ∨ x = p := by
    intro x
    rw [Worklist.hasLeft_pushAll_iff, Worklist.hasLeft_iff_of_pop hp]
  simp only [pairing] at hstep
  split at hstep
  · contradiction
  next m'' hmeet =>
    split at hstep
    next haccepting =>
      cases hstep
      rcases Partners.meet_cases hmeet with ⟨hl, hr⟩ | ⟨hold, _⟩
      · rw [Partners.meet_of_new hl hr] at hmeet
        cases hmeet
        have hleft_iff := getD_setIfInBounds_iff (r := fun s d =>
          (q'.pushAll (a.pairSuccessors b p)).HasLeft ⟨s, d⟩) hq.left_iff (hq.size_left ▸ hmem.1) hl
          fun s d => by rw [hleft, mk_eq_iff]
        have hright_iff := getD_setIfInBounds_iff (r := fun d s =>
          (q'.pushAll (a.pairSuccessors b p)).HasLeft ⟨s, d⟩) hq.right_iff
          (hq.size_right ▸ hmem.2) hr fun d s => by rw [hleft, mk_eq_iff, and_comm]
        refine ⟨hq.explored.visit hp, ?_, ?_, hleft_iff, ?_, ?_⟩
        · rw [Array.size_setIfInBounds, hq.size_left]
        · rw [Array.size_setIfInBounds, hq.size_right]
        · exact fun s d => (hleft_iff s d).trans (hright_iff d s).symm
        · intro x hx
          rw [hleft] at hx
          rcases hx with hx | rfl
          · exact hq.accepting_eq x hx
          · exact haccepting
      · -- a pair leaves the worklist once, so its states are no partners yet
        exact absurd ((hq.left_iff _ _).1 hold) (Worklist.not_hasLeft_of_pop hp)
    · contradiction

theorem ends_pairing (h : a.alphabet = b.alphabet) :
    (a.pairing b).Ends (Paired a b) ((a.pairing b).runFrom [⟨initial, initial⟩]
      (a.initial_mem_region b) (.empty a.numStates b.numStates)) := by
  apply Search.ends_runFrom _ (paired_start a b)
  intro q q' m p m' next hq hp hstep
  exact hq.step h hp hstep

theorem matched_of_isomorphic (h : a.isomorphic b = true) : a.Matched b := by
  unfold isomorphic at h
  split at h
  next halphabet =>
    split at h
    · contradiction
    next m q hr =>
      have hends := ends_pairing halphabet
      rw [hr] at hends
      obtain ⟨hpaired, hleft⟩ := hends.of_ok rfl
      have hall : ∀ p, a.Meets b p → q.HasLeft p := by
        intro p hp
        apply hleft
        have hpath := (exists_runs_iff halphabet).2 hp
        exact hpaired.explored.mem_seen_of_path hleft (List.mem_singleton_self _) hpath
      refine ⟨halphabet, ?_, fun p hp => hpaired.accepting_eq p (hall p hp)⟩
      intro p p' hp hp'
      have hl := (hpaired.left_iff _ _).2 (hall p hp)
      have hl' := (hpaired.left_iff _ _).2 (hall p' hp')
      have hr := (hpaired.right_iff _ _).2 (hall p hp)
      have hr' := (hpaired.right_iff _ _).2 (hall p' hp')
      constructor
      · intro heq
        exact Option.some.inj (hl.symm.trans (heq ▸ hl'))
      · intro heq
        exact Option.some.inj (hr.symm.trans (heq ▸ hr'))
  · contradiction

theorem Matched.step_ne_error (h : a.Matched b) {q q' : Worklist StatePair} {m : Partners}
    (hq : Paired a b q m) (hp : q.pop = some (p, q')) : (a.pairing b).step m p ≠ .error () := by
  have hmeets : ∀ x, q.HasLeft x → a.Meets b x := fun x hx =>
    meets_of_explored h.alphabet_eq hq.explored x hx.mem_seen
  have hp' := meets_of_explored h.alphabet_eq hq.explored p (Worklist.mem_seen_of_pop hp)
  have hnew := Worklist.not_hasLeft_of_pop hp
  -- the partner of either state would be the other one, but the pair has not left before
  have hl : m.left.getD p.left none = none := by
    rw [Option.eq_none_iff_forall_ne_some]
    intro d hd
    rw [hq.left_iff] at hd
    obtain rfl : d = p.right := (h.left_iff_right _ _ (hmeets _ hd) hp').1 rfl
    exact hnew hd
  have hr : m.right.getD p.right none = none := by
    rw [Option.eq_none_iff_forall_ne_some]
    intro s hs
    rw [hq.right_iff] at hs
    obtain rfl : s = p.left := (h.left_iff_right _ _ (hmeets _ hs) hp').2 rfl
    exact hnew hs
  simp only [pairing, Partners.meet_of_new hl hr, h.accepting_eq p hp', if_true]
  nofun

theorem isomorphic_iff_matched : a.isomorphic b = true ↔ a.Matched b := by
  refine ⟨matched_of_isomorphic, fun h => ?_⟩
  unfold isomorphic
  rw [if_pos h.alphabet_eq]
  split
  next q hr =>
    have hends := ends_pairing h.alphabet_eq
    rw [hr] at hends
    obtain ⟨_, m, p, hq, hp, hstep⟩ := hends.of_error rfl
    exact absurd hstep (h.step_ne_error hq hp)
  · rfl

end Pairing

section Renaming

/-- A renaming of the states of `a` that a word leads to by those of `b`. -/
structure Renames (a b : Automaton) (f : StateId → StateId) : Prop where
  bijective : Set.BijOn f {s | ∃ w, a.run initial w = .ok s} {d | ∃ w, b.run initial w = .ok d}
  initial_eq : f initial = initial
  accepting_eq : ∀ w s, a.run initial w = .ok s → b.accepting (f s) = a.accepting s
  step_eq : ∀ w s c d, a.run initial w = .ok s → a.step s c = .ok d → b.step (f s) c = .ok (f d)

variable {f : StateId → StateId}

theorem Renames.run_eq (h : a.Renames b f) (hw : a.run initial w = .ok s) :
    b.run initial w = .ok (f s) := by
  induction w using List.reverseRecOn generalizing s with
  | nil =>
    cases hw
    rw [h.initial_eq]
    rfl
  | append_singleton w c ih =>
    obtain ⟨d, hd, hrun⟩ := run_append_eq_ok_iff.1 hw
    obtain ⟨s', hstep, hs'⟩ := run_cons_eq_ok_iff.1 hrun
    cases hs'
    exact run_snoc (ih hd) (h.step_eq w d c s hd hstep)

theorem Renames.right_eq (h : a.Renames b f) (hp : a.Meets b p) : p.right = f p.left := by
  obtain ⟨w, hl, hr⟩ := hp
  exact Except.ok.inj (hr.symm.trans (h.run_eq hl))

theorem Renames.matched (halphabet : a.alphabet = b.alphabet) (h : a.Renames b f) :
    a.Matched b where
  alphabet_eq := halphabet
  left_iff_right := by
    intro p p' hp hp'
    have hl : p.left ∈ {s | ∃ w, a.run initial w = .ok s} := hp.imp fun _ => And.left
    have hl' : p'.left ∈ {s | ∃ w, a.run initial w = .ok s} := hp'.imp fun _ => And.left
    rw [h.right_eq hp, h.right_eq hp']
    exact (h.bijective.injOn.eq_iff hl hl').symm
  accepting_eq := by
    intro p hp
    obtain ⟨w, hl, _⟩ := id hp
    rw [h.right_eq hp, h.accepting_eq w p.left hl]

theorem Matched.exists_renames (h : a.Matched b) : ∃ f, a.Renames b f := by
  have hpartner : ∀ s, ∃ d, ∀ w, a.run initial w = .ok s → b.run initial w = .ok d := by
    intro s
    by_cases hs : ∃ w, a.run initial w = .ok s
    · obtain ⟨w, hw⟩ := hs
      obtain ⟨d, _, hmeets⟩ := exists_meets h.alphabet_eq hw
      refine ⟨d, fun v hv => ?_⟩
      obtain ⟨d', hd', hmeets'⟩ := exists_meets h.alphabet_eq hv
      have heq : d' = d := (h.left_iff_right _ _ hmeets' hmeets).1 rfl
      rw [hd', heq]
    · exact ⟨s, fun w hw => absurd ⟨w, hw⟩ hs⟩
  choose f hf using hpartner
  refine ⟨f, ⟨?_, ?_, ?_⟩, ?_, ?_, ?_⟩
  · rintro s ⟨w, hw⟩
    exact ⟨w, hf s w hw⟩
  · rintro s ⟨w, hw⟩ s' ⟨w', hw'⟩ heq
    exact (h.left_iff_right ⟨s, f s⟩ ⟨s', f s'⟩ ⟨w, hw, hf s w hw⟩ ⟨w', hw', hf s' w' hw'⟩).2 heq
  · rintro d ⟨w, hw⟩
    obtain ⟨s, hs, _⟩ := exists_meets h.alphabet_eq.symm hw
    exact ⟨s, ⟨w, hs⟩, Except.ok.inj ((hf s w hs).symm.trans hw)⟩
  · exact Except.ok.inj (hf initial [] rfl).symm
  · intro w s hw
    exact (h.accepting_eq ⟨s, f s⟩ ⟨w, hw, hf s w hw⟩).symm
  · intro w s c d hw hstep
    obtain ⟨s', hs', hrun⟩ := run_append_eq_ok_iff.1 (hf d (w ++ [c]) (run_snoc hw hstep))
    obtain ⟨d', hstep', hd'⟩ := run_cons_eq_ok_iff.1 hrun
    cases hd'
    cases (hf s w hw).symm.trans hs'
    exact hstep'

theorem isomorphic_iff_exists_renames :
    a.isomorphic b = true ↔ a.alphabet = b.alphabet ∧ ∃ f, a.Renames b f := by
  rw [isomorphic_iff_matched]
  constructor
  · exact fun h => ⟨h.alphabet_eq, h.exists_renames⟩
  · rintro ⟨halphabet, f, hf⟩
    exact hf.matched halphabet

theorem AgreesWith.step_eq (h : a.AgreesWith b) (s : StateId) (c : Char) :
    b.step s c = a.step s c := by
  unfold step
  simp only [successor?_eq_getElem?, h.alphabet_eq, h.successors_eq]

theorem AgreesWith.run_eq (h : a.AgreesWith b) (s : StateId) (w : List Char) :
    b.run s w = a.run s w := by
  have hstep : b.step = a.step := funext fun s => funext fun c => h.step_eq s c
  rw [run, run, hstep]

theorem AgreesWith.renames (h : a.AgreesWith b) : a.Renames b id where
  bijective := by
    simp only [h.run_eq]
    exact Set.bijOn_id _
  initial_eq := rfl
  accepting_eq _ s _ := (h.accepting_eq s).symm
  step_eq _ s c d _ hstep := by rw [id, id, h.step_eq, hstep]

theorem AgreesWith.matched (h : a.AgreesWith b) : a.Matched b := h.renames.matched h.alphabet_eq

theorem AgreesWith.isomorphic (h : a.AgreesWith b) : a.isomorphic b = true :=
  isomorphic_iff_matched.2 h.matched

theorem agreesWith_self (a : Automaton) : a.AgreesWith a := ⟨rfl, rfl, rfl, fun _ => rfl⟩

end Renaming

section Exact

theorem Matched.equivalent (h : a.Matched b) : (a.equivalent b).value = .ok true := by
  obtain ⟨r, hr, hiff⟩ := relates_eq_ok h.alphabet_eq fun x y => x == y
  rw [Automaton.equivalent, hr, hiff.2]
  intro w s d hs hd
  exact beq_iff_eq.2 (h.accepting_eq ⟨s, d⟩ ⟨w, hs, hd⟩)

/--
Two automata are isomorphic if and only if they have the same alphabet and the states of one that a
word leads to can be renamed to those of the other. This is an equivalence, and isomorphic automata
accept the same words.
-/
theorem isomorphism_exact :
    (∀ a b : Automaton, a.isomorphic b = true ↔ a.alphabet = b.alphabet ∧ ∃ f, a.Renames b f) ∧
    Equivalence (fun a b : Automaton => a.isomorphic b = true) ∧
    ∀ a b : Automaton, a.isomorphic b = true → (a.equivalent b).value = .ok true := by
  refine ⟨fun a b => isomorphic_iff_exists_renames, ⟨?_, ?_, ?_⟩, ?_⟩
  · intro a
    exact a.agreesWith_self.isomorphic
  · intro a b h
    rw [isomorphic_iff_matched] at h ⊢
    exact h.symm
  · intro a b c hab hbc
    rw [isomorphic_iff_matched] at hab hbc ⊢
    exact hab.trans hbc
  · intro a b h
    exact (matched_of_isomorphic h).equivalent

end Exact

section BreadthFirst

variable (h : a.Matched b)

include h

theorem Matched.accesses (hp : a.Meets b p) (hu : a.Accesses p.left u) : b.Accesses p.right u := by
  obtain ⟨d, hd, hmeets⟩ := exists_meets h.alphabet_eq hu.run_eq
  obtain rfl : d = p.right := (h.left_iff_right _ _ hmeets hp).1 rfl
  refine ⟨hd, fun v hv => ?_⟩
  obtain ⟨s, hs, hmeets'⟩ := exists_meets h.alphabet_eq.symm hv
  obtain rfl : s = p.left := (h.left_iff_right _ _ hmeets'.symm hp).2 rfl
  rw [← h.alphabet_eq]
  exact hu.least v hs

variable (ha : a.BreadthFirst) (hb : b.BreadthFirst)

include ha hb

theorem Matched.lt_iff_lt (hp : a.Meets b p) (hp' : a.Meets b p') :
    p.left < p'.left ↔ p.right < p'.right := by
  obtain ⟨u, hu⟩ := ha.exists_accesses hp.mem_region.1
  obtain ⟨v, hv⟩ := ha.exists_accesses hp'.mem_region.1
  rw [ha.lt_iff_precedes hu hv, hb.lt_iff_precedes (h.accesses hp hu) (h.accesses hp' hv),
    h.alphabet_eq]

theorem Matched.left_le_right (hp : a.Meets b p) : p.left ≤ p.right := by
  obtain ⟨s, d⟩ := p
  dsimp only
  induction s generalizing d with
  | zero => exact Nat.zero_le d
  | succ s ih =>
    -- the partner of the state before it is smaller than its own one
    have hs : s < a.numStates := Nat.lt_of_succ_lt hp.mem_region.1
    obtain ⟨u, hu⟩ := ha.exists_accesses hs
    obtain ⟨d', _, hmeets⟩ := exists_meets h.alphabet_eq hu.run_eq
    have hlt : d' < d := (h.lt_iff_lt ha hb hmeets hp).1 (Nat.lt_succ_self s)
    exact Nat.succ_le_of_lt (Nat.lt_of_le_of_lt (ih d' hmeets) hlt)

theorem Matched.left_eq_right (hp : a.Meets b p) : p.left = p.right :=
  Nat.le_antisymm (h.left_le_right ha hb hp) (h.symm.left_le_right hb ha hp.symm)

theorem Matched.meets_self (hs : s < a.numStates) : a.Meets b ⟨s, s⟩ := by
  obtain ⟨u, hu⟩ := ha.exists_accesses hs
  obtain ⟨d, _, hmeets⟩ := exists_meets h.alphabet_eq hu.run_eq
  cases h.left_eq_right ha hb hmeets
  exact hmeets

theorem Matched.numStates_le : a.numStates ≤ b.numStates := by
  by_contra hlt
  have hmeets := h.meets_self ha hb (Nat.lt_of_not_le hlt)
  exact Nat.lt_irrefl _ hmeets.mem_region.2

theorem Matched.agreesWith : a.AgreesWith b := by
  have hnum : a.numStates = b.numStates :=
    Nat.le_antisymm (h.numStates_le ha hb) (h.symm.numStates_le hb ha)
  have haccepting : ∀ s < a.numStates, a.accepting s = b.accepting s := by
    intro s hs
    exact h.accepting_eq _ (h.meets_self ha hb hs)
  refine ⟨h.alphabet_eq, hnum, ?_, ?_⟩
  · rw [finals, finals, ← hnum]
    apply List.filter_congr
    intro s hs
    exact haccepting s (List.mem_range.1 hs)
  · intro s
    by_cases hs : s < a.numStates
    · have hmeets := h.meets_self ha hb hs
      apply List.ext_getElem
      · rw [length_successors hs, length_successors (hnum ▸ hs), h.alphabet_eq]
      · intro k hk hk'
        have hl : a.successor? s k = some (a.successors s)[k] := by
          rw [successor?_eq_getElem?, List.getElem?_eq_getElem hk]
        have hr : b.successor? s k = some (b.successors s)[k] := by
          rw [successor?_eq_getElem?, List.getElem?_eq_getElem hk']
        exact h.left_eq_right ha hb (hmeets.successor h.alphabet_eq hl hr)
    · rw [successors_of_le (Nat.le_of_not_lt hs), successors_of_le (hnum ▸ Nat.le_of_not_lt hs)]

end BreadthFirst

end Automaton

end Residual
