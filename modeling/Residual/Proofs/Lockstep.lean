import Residual.Proofs.Construction

/-!
This module contains constructions that are guided by another one. As long as the guide goes on,
they meet the same residuals in the same order, although their workspaces differ.
-/

namespace Residual

namespace Construction

variable {room room' : Nat}

section Step

def step (x : Construction room) (t : TermId) (k : Nat) (c : Char) :
    Except (Construction room) (Construction room) :=
  let (d, workspace) := x.workspace.derivative t c
  (enter { x with workspace } d).bind fun y => .ok (y.connect t k d)

theorem follow_cons (x : Construction room) (t : TermId) (k : Nat) (c : Char)
    (symbols : List Char) :
    x.follow t k (c :: symbols) = (x.step t k c).bind fun y => y.follow t (k + 1) symbols := by
  simp only [follow, step]
  generalize enter _ (x.workspace.derivative t c).1 = r
  cases r with
  | error y => rfl
  | ok y => rfl

def leave (x : Construction room) (t : TermId) (q : Worklist TermId) (hq : q.numSeen ≤ room) :
    Construction room where
  workspace := x.workspace
  residuals := q
  builder := if x.workspace.store.nullable t then x.builder.markFinal t else x.builder
  log := x.log
  numSeen_le := hq

theorem finish_eq (x : Construction room) (t : TermId) (q : Worklist TermId)
    (hq : q.numSeen ≤ room) (symbols : List Char) :
    x.finish t q hq symbols = (x.leave t q hq).follow t 0 symbols :=
  rfl

theorem reached_step (x : Construction room) (t : TermId) (k : Nat) (c : Char) :
    reached (x.step t k c) = (x.workspace.derivative t c).2 := by
  have hreached := reached_enter { x with workspace := (x.workspace.derivative t c).2 }
    (x.workspace.derivative t c).1
  unfold step
  dsimp only at hreached ⊢
  generalize enter _ (x.workspace.derivative t c).1 = r at hreached ⊢
  cases r with
  | error y => exact hreached
  | ok y => exact hreached

theorem seen_of_step_ok {x y : Construction room} {t : TermId} {k : Nat} {c : Char}
    (h : x.step t k c = .ok y) :
    y.residuals.seen = (x.residuals.seen.number (x.workspace.derivative t c).1).2 := by
  unfold step at h
  dsimp only at h
  cases hr : enter { x with workspace := (x.workspace.derivative t c).2 }
      (x.workspace.derivative t c).1 with
  | error z =>
    rw [hr] at h
    contradiction
  | ok z =>
    rw [hr] at h
    cases h
    exact (of_enter_ok hr).2.2

end Step

section Issued

structure Issued (x : Construction room) : Prop where
  sound : x.workspace.Sound
  lt_numTerms : ∀ t ∈ x.residuals.seen, t < x.workspace.numTerms

theorem issued_start {w : Workspace} (hw : w.Sound) {t : TermId} (ht : t < w.numTerms)
    (a : Alphabet) (h : 0 < room) : (start w t a h).Issued := by
  refine ⟨hw, fun u hu => ?_⟩
  rcases Worklist.mem_seen_push.1 hu with hu | rfl
  · exact absurd hu (Numbering.not_mem_empty u)
  · exact ht

structure Advances (w : Workspace) (r : Except (Construction room) (Construction room)) : Prop where
  learns : w.Learns (reached r)
  issued : ∀ y, r = .ok y → y.Issued

variable {w : Workspace} {x : Construction room} {t : TermId} {symbols : List Char}

theorem Advances.bind {r : Except (Construction room) (Construction room)}
    {f : Construction room → Except (Construction room) (Construction room)} (h : Advances w r)
    (hf : ∀ y, r = .ok y → Advances y.workspace (f y)) : Advances w (r.bind f) := by
  cases r with
  | error y => exact ⟨h.learns, nofun⟩
  | ok y =>
    have hy := hf y rfl
    exact ⟨h.learns.trans hy.learns, hy.issued⟩

theorem learns_of_bind {r : Except (Construction room) (Construction room)}
    {f : Construction room → Except (Construction room) (Construction room)}
    (hf : ∀ y, r = .ok y → Advances y.workspace (f y)) (h : (reached (r.bind f)).Learns w) :
    (reached r).Learns w := by
  cases r with
  | error y => exact h
  | ok y => exact (hf y rfl).learns.trans h

theorem Issued.advances_step (hx : x.Issued) (ht : t < x.workspace.numTerms) (k : Nat) (c : Char) :
    Advances x.workspace (x.step t k c) := by
  have hderives := Workspace.derives_derivative hx.sound ht c
  have hreached := reached_step x t k c
  constructor
  · rw [hreached]
    exact hderives.learns
  · intro y hy
    rw [hy] at hreached
    have hworkspace : y.workspace = (x.workspace.derivative t c).2 := hreached
    constructor
    · rw [hworkspace]
      exact hderives.learns.sound
    · intro u hu
      rw [hworkspace]
      rw [seen_of_step_ok hy, Numbering.mem_number] at hu
      rcases hu with hu | rfl
      · exact hderives.learns.ext.lt_size (hx.lt_numTerms u hu)
      · exact hderives.lt_numTerms

theorem Issued.advances_follow (hx : x.Issued) (ht : t < x.workspace.numTerms) (k : Nat)
    (symbols : List Char) : Advances x.workspace (x.follow t k symbols) := by
  induction symbols generalizing x k with
  | nil =>
    refine ⟨.refl hx.sound, ?_⟩
    rintro y ⟨⟩
    exact hx
  | cons c symbols ih =>
    have hstep := hx.advances_step ht k c
    rw [follow_cons]
    apply hstep.bind
    intro y hy
    have hlearns := hstep.learns
    rw [hy] at hlearns
    exact ih (hstep.issued y hy) (hlearns.ext.lt_size ht) (k + 1)

theorem Issued.leave (hx : x.Issued) {q : Worklist TermId}
    (hp : x.residuals.pop = some (t, q)) : (x.leave t q (x.numSeen_le_of_pop hp)).Issued := by
  refine ⟨hx.sound, fun u hu => hx.lt_numTerms u ?_⟩
  rw [← Worklist.seen_of_pop hp]
  exact hu

theorem Issued.lt_of_pop (hx : x.Issued) {q : Worklist TermId}
    (hp : x.residuals.pop = some (t, q)) : t < x.workspace.numTerms :=
  hx.lt_numTerms t (Worklist.mem_seen_of_pop hp)

theorem Issued.advances_finish (hx : x.Issued) {q : Worklist TermId}
    (hp : x.residuals.pop = some (t, q)) (symbols : List Char) :
    Advances x.workspace (x.finish t q (x.numSeen_le_of_pop hp) symbols) := by
  rw [finish_eq]
  exact (hx.leave hp).advances_follow (hx.lt_of_pop hp) 0 symbols

theorem Issued.advances_run (hx : x.Issued) (symbols : List Char) :
    Advances x.workspace (x.run symbols) := by
  fun_induction run x symbols with
  | case1 x _ =>
    refine ⟨.refl hx.sound, ?_⟩
    rintro y ⟨⟩
    exact hx
  | case2 x t q hp y hy =>
    rw [← hy]
    exact hx.advances_finish hp symbols
  | case3 x t q hp y hy ih =>
    have hfinish := hx.advances_finish hp symbols
    rw [hy] at hfinish
    have hrun := ih (hfinish.issued y rfl)
    exact ⟨hfinish.learns.trans hrun.learns, hrun.issued⟩

end Issued

section Guide

variable {R : Workspace → Workspace → Prop} {w : Workspace} {t : TermId} {symbols : List Char}

/--
Whether workspaces in the relation `R` stay in it when both learn a derivative that the first one
learns on its way to `w`. They then have the same id for it.
-/
structure Carries (R : Workspace → Workspace → Prop) (w : Workspace) : Prop where
  ext : ∀ u v, R u v → u.store.Extends v.store
  derivative : ∀ u v t c, R u v → u.Sound → t < u.numTerms → (u.derivative t c).2.Learns w →
    ∃ v', v.derivative t c = ((u.derivative t c).1, v') ∧ R (u.derivative t c).2 v'

structure Alike (R : Workspace → Workspace → Prop) (x : Construction room)
    (y : Construction room') : Prop where
  workspace : R x.workspace y.workspace
  residuals_eq : y.residuals = x.residuals
  builder_eq : y.builder = x.builder
  log_eq : y.log = x.log

def Accompanies (R : Workspace → Workspace → Prop) :
    Except (Construction room) (Construction room) →
      Except (Construction room') (Construction room') → Prop
  | .ok x, r' => ∃ y, r' = .ok y ∧ Alike R x y
  | .error x, r' => room = room' → ∃ y, r' = .error y ∧ R x.workspace y.workspace

variable {x : Construction room} {y : Construction room'}

theorem Accompanies.bind {r : Except (Construction room) (Construction room)}
    {r' : Except (Construction room') (Construction room')}
    {f : Construction room → Except (Construction room) (Construction room)}
    {g : Construction room' → Except (Construction room') (Construction room')}
    (h : Accompanies R r r') (hf : ∀ x y, r = .ok x → Alike R x y → Accompanies R (f x) (g y)) :
    Accompanies R (r.bind f) (r'.bind g) := by
  cases r with
  | error x =>
    intro hroom
    obtain ⟨y, rfl, hy⟩ := h hroom
    exact ⟨y, rfl, hy⟩
  | ok x =>
    obtain ⟨y, rfl, hxy⟩ := h
    exact hf x y rfl hxy

theorem Alike.enter (h : Alike R x y) (hle : room ≤ room') (d : TermId) :
    Accompanies R (x.enter d) (y.enter d) := by
  obtain ⟨u, q, b, log, hx⟩ := x
  obtain ⟨v, q', b', log', hy⟩ := y
  obtain ⟨hR, hq, hb, hlog⟩ := h
  dsimp only at hR hq hb hlog
  subst hq hb hlog
  cases hfind : q'.seen.find? d with
  | some i =>
    have hx' := enter_of_seen (x := ⟨u, q', b', log', hx⟩) hfind
    have hy' := enter_of_seen (x := ⟨v, q', b', log', hy⟩) hfind
    rw [hx', hy']
    exact ⟨_, rfl, hR, rfl, rfl, rfl⟩
  | none =>
    by_cases hroom : q'.numSeen < room
    · have hroom' := Nat.lt_of_lt_of_le hroom hle
      obtain ⟨_, hx'⟩ := enter_of_room (x := ⟨u, q', b', log', hx⟩) hfind hroom
      obtain ⟨_, hy'⟩ := enter_of_room (x := ⟨v, q', b', log', hy⟩) hfind hroom'
      rw [hx', hy']
      exact ⟨_, rfl, hR, rfl, rfl, rfl⟩
    · have hx' := enter_of_full (x := ⟨u, q', b', log', hx⟩) hfind hroom
      rw [hx']
      rintro rfl
      have hy' := enter_of_full (x := ⟨v, q', b', log', hy⟩) hfind hroom
      exact ⟨_, hy', hR⟩

theorem Alike.step (h : Alike R x y) (hR : Carries R w) (hle : room ≤ room')
    (hx : x.workspace.Sound) (ht : t < x.workspace.numTerms) (k : Nat) (c : Char)
    (hw : (x.workspace.derivative t c).2.Learns w) :
    Accompanies R (x.step t k c) (y.step t k c) := by
  obtain ⟨v, hv, hRv⟩ := hR.derivative _ _ t c h.workspace hx ht hw
  have halike : Alike R { x with workspace := (x.workspace.derivative t c).2 }
      { y with workspace := v } := ⟨hRv, h.residuals_eq, h.builder_eq, h.log_eq⟩
  unfold Construction.step
  rw [hv]
  apply (halike.enter hle (x.workspace.derivative t c).1).bind
  intro x' y' _ h'
  have hbuilder := congrArg (fun b => b.connect t k (x.workspace.derivative t c).1) h'.builder_eq
  exact ⟨_, rfl, h'.workspace, h'.residuals_eq, hbuilder, h'.log_eq⟩

theorem Alike.follow (h : Alike R x y) (hR : Carries R w) (hle : room ≤ room') (hx : x.Issued)
    (ht : t < x.workspace.numTerms) (k : Nat)
    (hw : (reached (x.follow t k symbols)).Learns w) :
    Accompanies R (x.follow t k symbols) (y.follow t k symbols) := by
  induction symbols generalizing x y k with
  | nil => exact ⟨y, rfl, h⟩
  | cons c symbols ih =>
    have hstep := hx.advances_step ht k c
    have hrest : ∀ x', x.step t k c = .ok x' → t < x'.workspace.numTerms := by
      intro x' hx'
      have hlearns := hstep.learns
      rw [hx'] at hlearns
      exact hlearns.ext.lt_size ht
    rw [follow_cons] at hw
    have hlearns := learns_of_bind
      (fun x' hx' => (hstep.issued x' hx').advances_follow (hrest x' hx') (k + 1) symbols) hw
    rw [reached_step] at hlearns
    rw [follow_cons, follow_cons]
    apply (h.step hR hle hx.sound ht k c hlearns).bind
    intro x' y' hx' h'
    rw [hx'] at hw
    exact ih h' (hstep.issued x' hx') (hrest x' hx') (k + 1) hw

theorem Alike.leave (h : Alike R x y) (hR : Carries R w) (ht : t < x.workspace.numTerms)
    {q : Worklist TermId} (hq : q.numSeen ≤ room) (hq' : q.numSeen ≤ room') :
    Alike R (x.leave t q hq) (y.leave t q hq') := by
  refine ⟨h.workspace, rfl, ?_, h.log_eq⟩
  unfold Construction.leave
  rw [h.builder_eq, (hR.ext _ _ h.workspace).nullable_eq ht]

theorem Alike.finish (h : Alike R x y) (hR : Carries R w) (hle : room ≤ room') (hx : x.Issued)
    {q : Worklist TermId} (hp : x.residuals.pop = some (t, q)) (hq : q.numSeen ≤ room')
    (hw : (reached (x.finish t q (x.numSeen_le_of_pop hp) symbols)).Learns w) :
    Accompanies R (x.finish t q (x.numSeen_le_of_pop hp) symbols) (y.finish t q hq symbols) := by
  have ht := hx.lt_of_pop hp
  rw [finish_eq] at hw
  rw [finish_eq, finish_eq]
  exact (h.leave hR ht _ hq).follow hR hle (hx.leave hp) ht 0 hw

theorem Alike.run (h : Alike R x y) (hR : Carries R w) (hle : room ≤ room') (hx : x.Issued)
    (hw : (reached (x.run symbols)).Learns w) : Accompanies R (x.run symbols) (y.run symbols) := by
  fun_induction Construction.run x symbols generalizing y with
  | case1 x hp =>
    rw [run_of_pop_none (h.residuals_eq ▸ hp)]
    exact ⟨y, rfl, h⟩
  | case2 x t q hp x' hx' =>
    have hp' : y.residuals.pop = some (t, q) := h.residuals_eq ▸ hp
    rw [← hx'] at hw
    have hfinish := h.finish hR hle hx hp (y.numSeen_le_of_pop hp') hw
    rw [hx'] at hfinish
    rw [run_of_pop hp']
    intro hroom
    obtain ⟨y', hy', hRy⟩ := hfinish hroom
    rw [hy']
    exact ⟨y', rfl, hRy⟩
  | case3 x t q hp x' hx' ih =>
    have hp' : y.residuals.pop = some (t, q) := h.residuals_eq ▸ hp
    have hissued := (hx.advances_finish hp symbols).issued x' hx'
    have hlearns : (reached (.ok x')).Learns w := (hissued.advances_run symbols).learns.trans hw
    rw [← hx'] at hlearns
    have hfinish := h.finish hR hle hx hp (y.numSeen_le_of_pop hp') hlearns
    rw [hx'] at hfinish
    obtain ⟨y', hy', h'⟩ := hfinish
    rw [run_of_pop hp', hy']
    exact ih h' hissued hw

theorem Issued.holds_run {P : Workspace → Prop}
    (hP : ∀ w t c, w.Sound → P w → t < w.numTerms → P (w.derivative t c).2) (hx : x.Issued)
    (h : P x.workspace) : P (reached (x.run symbols)) := by
  -- the construction is its own guide, in the relation that links `P` to itself
  have hcarries : Carries (fun u v => u = v ∧ P u) (reached (x.run symbols)) := by
    constructor
    · rintro u _ ⟨rfl, _⟩
      exact .refl u.store
    · rintro u _ t c ⟨rfl, hu⟩ hsound ht _
      exact ⟨_, rfl, rfl, hP u t c hsound hu ht⟩
  have halike : Alike (fun u v => u = v ∧ P u) x x := ⟨⟨rfl, h⟩, rfl, rfl, rfl⟩
  have hend : (reached (x.run symbols)).Sound := (hx.advances_run symbols).learns.sound
  have hrun := halike.run hcarries (Nat.le_refl room) hx (.refl hend)
  generalize x.run symbols = r at hrun
  cases r with
  | error y =>
    obtain ⟨_, _, _, hy⟩ := hrun rfl
    exact hy
  | ok y =>
    obtain ⟨_, _, hy⟩ := hrun
    exact hy.workspace.2

end Guide

section Meet

variable {R S : Workspace → Workspace → Prop} {w : Workspace} {x x' : Construction room}
  {y z : Construction room'} {t : TermId} {symbols : List Char}

theorem eq_of_fields (hworkspace : y.workspace = z.workspace)
    (hresiduals : y.residuals = z.residuals) (hbuilder : y.builder = z.builder)
    (hlog : y.log = z.log) : y = z := by
  cases y
  cases z
  dsimp only at hworkspace hresiduals hbuilder hlog
  subst hworkspace hresiduals hbuilder hlog
  rfl

variable (hR : Carries R w) (hS : Carries S w) (hmeet : ∀ v v', R w v → S w v' → v = v')

include hR hS hmeet

theorem step_eq_of_error (hy : Alike R x y) (hz : Alike S x z) (hx : x.workspace.Sound)
    (ht : t < x.workspace.numTerms) {k : Nat} {c : Char} (h : x.step t k c = .error x')
    (hw : x'.workspace = w) : y.step t k c = z.step t k c := by
  have hreached := reached_step x t k c
  rw [h] at hreached
  have hderivative : (x.workspace.derivative t c).2 = w := hreached.symm.trans hw
  have hlearns : (x.workspace.derivative t c).2.Learns w := by
    rw [← hderivative]
    exact .refl (Workspace.derives_derivative hx ht c).learns.sound
  obtain ⟨v, hv, hRv⟩ := hR.derivative _ _ t c hy.workspace hx ht hlearns
  obtain ⟨v', hv', hSv⟩ := hS.derivative _ _ t c hz.workspace hx ht hlearns
  rw [hderivative] at hRv hSv
  obtain rfl := hmeet v v' hRv hSv
  have heq : ({ y with workspace := v } : Construction room') = { z with workspace := v } :=
    eq_of_fields rfl (hy.residuals_eq.trans hz.residuals_eq.symm)
      (hy.builder_eq.trans hz.builder_eq.symm) (hy.log_eq.trans hz.log_eq.symm)
  unfold step
  rw [hv, hv']
  dsimp only
  rw [heq]

variable (hle : room ≤ room')

include hle

theorem follow_eq_of_error (hy : Alike R x y) (hz : Alike S x z) (hx : x.Issued)
    (ht : t < x.workspace.numTerms) {k : Nat} (h : x.follow t k symbols = .error x')
    (hw : x'.workspace = w) : y.follow t k symbols = z.follow t k symbols := by
  induction symbols generalizing x y z k with
  | nil => contradiction
  | cons c symbols ih =>
    have hstep := hx.advances_step ht k c
    rw [follow_cons] at h
    rw [follow_cons, follow_cons]
    cases hx₁ : x.step t k c with
    | error x₁ =>
      rw [hx₁] at h
      cases h
      rw [step_eq_of_error hR hS hmeet hy hz hx.sound ht hx₁ hw]
    | ok x₁ =>
      have hreached := reached_step x t k c
      rw [hx₁] at h hstep hreached
      have h : x₁.follow t (k + 1) symbols = .error x' := h
      have hissued := hstep.issued x₁ rfl
      have ht₁ := hstep.learns.ext.lt_size ht
      have hlearns := (hissued.advances_follow ht₁ (k + 1) symbols).learns
      rw [h] at hlearns
      have hlearns' : (x.workspace.derivative t c).2.Learns w := hreached ▸ hw ▸ hlearns
      have hstepy := hy.step hR hle hx.sound ht k c hlearns'
      have hstepz := hz.step hS hle hx.sound ht k c hlearns'
      rw [hx₁] at hstepy hstepz
      obtain ⟨y₁, hy₁, hxy₁⟩ := hstepy
      obtain ⟨z₁, hz₁, hxz₁⟩ := hstepz
      rw [hy₁, hz₁]
      exact ih hxy₁ hxz₁ hissued ht₁ h

theorem run_eq_of_error (hy : Alike R x y) (hz : Alike S x z) (hx : x.Issued)
    (h : x.run symbols = .error x') (hw : x'.workspace = w) : y.run symbols = z.run symbols := by
  fun_induction Construction.run x symbols generalizing y z with
  | case1 x hp => contradiction
  | case2 x t q hp x₁ hx₁ =>
    cases h
    have ht := hx.lt_of_pop hp
    have hpy : y.residuals.pop = some (t, q) := hy.residuals_eq ▸ hp
    have hpz : z.residuals.pop = some (t, q) := hz.residuals_eq ▸ hp
    have hy' := hy.leave hR ht (x.numSeen_le_of_pop hp) (y.numSeen_le_of_pop hpy)
    have hz' := hz.leave hS ht (x.numSeen_le_of_pop hp) (z.numSeen_le_of_pop hpz)
    rw [finish_eq] at hx₁
    rw [run_of_pop hpy, run_of_pop hpz, finish_eq, finish_eq,
      follow_eq_of_error hR hS hmeet hle hy' hz' (hx.leave hp) ht hx₁ hw]
  | case3 x t q hp x₁ hx₁ ih =>
    -- what this residual adds is known where the guide is given up
    have hpy : y.residuals.pop = some (t, q) := hy.residuals_eq ▸ hp
    have hpz : z.residuals.pop = some (t, q) := hz.residuals_eq ▸ hp
    have hissued := (hx.advances_finish hp symbols).issued x₁ hx₁
    have hlearns := (hissued.advances_run symbols).learns
    rw [h] at hlearns
    have hlearns' : (reached (x.finish t q (x.numSeen_le_of_pop hp) symbols)).Learns w := by
      rw [hx₁, ← hw]
      exact hlearns
    have hfinishy := hy.finish hR hle hx hp (y.numSeen_le_of_pop hpy) hlearns'
    have hfinishz := hz.finish hS hle hx hp (z.numSeen_le_of_pop hpz) hlearns'
    rw [hx₁] at hfinishy hfinishz
    obtain ⟨y₁, hy₁, hxy₁⟩ := hfinishy
    obtain ⟨z₁, hz₁, hxz₁⟩ := hfinishz
    rw [run_of_pop hpy, run_of_pop hpz, hy₁, hz₁]
    exact ih hxy₁ hxz₁ hissued h

end Meet

end Construction

end Residual
