import Residual.Compilation
import Residual.Proofs.Exploration

/-!
This module contains the run of a construction. The worklist and the builder number the same terms
in the same way, and a construction is given up only when there are too many residuals.
-/

namespace Residual

open Std

namespace Construction

variable {room : Nat} {w : Workspace} {e : TermId} {a : Alphabet}

structure Invariant (w : Workspace) (e : TermId) (a : Alphabet) (m : Nat) (current : Option Nat)
    (x : Construction room) : Prop where
  keys_eq : x.builder.keys = x.residuals.seen
  explores : x.builder.Explores w x.workspace e a m current

structure Overflows (w : Workspace) (e : TermId) (a : Alphabet) (x : Construction room) :
    Prop where
  learns : w.Learns x.workspace
  many : ∃ ts : List TermId, ts.Nodup ∧ room < ts.length ∧
    ∀ t ∈ ts, x.workspace.IsResidual (w.store.tree e) a t

def Reaches (w : Workspace) (e : TermId) (a : Alphabet) (p : Construction room → Prop) :
    Except (Construction room) (Construction room) → Prop
  | .ok y => p y
  | .error y => y.Overflows w e a

theorem Reaches.imp {p q : Construction room → Prop}
    {r : Except (Construction room) (Construction room)} (h : Reaches w e a p r)
    (hpq : ∀ y, r = .ok y → p y → q y) : Reaches w e a q r := by
  cases r with
  | ok y => exact hpq y rfl h
  | error y => exact h

section Steps

section Enter

variable {x y : Construction room} {t : TermId} {i : Nat}

theorem enter_of_seen (h : x.residuals.seen.find? t = some i) : x.enter t = .ok x := by
  unfold enter
  dsimp only
  split
  · rfl
  next hnone =>
    rw [h] at hnone
    contradiction

theorem enter_of_room (h : x.residuals.seen.find? t = none) (hroom : x.residuals.numSeen < room) :
    ∃ hle, x.enter t = .ok ⟨x.workspace, x.residuals.pushNew t h, x.builder,
      x.log.push (.newState x.residuals.numSeen t), hle⟩ := by
  have hle : (x.residuals.pushNew t h).numSeen ≤ room := by
    rw [Worklist.numSeen_pushNew]
    exact hroom
  refine ⟨hle, ?_⟩
  unfold enter
  dsimp only
  split
  next hsome =>
    rw [h] at hsome
    contradiction
  · rw [dif_pos hroom]

theorem enter_of_full (h : x.residuals.seen.find? t = none) (hfull : ¬x.residuals.numSeen < room) :
    x.enter t = .error ⟨x.workspace, x.residuals, x.builder,
      x.log.push (.newState x.residuals.numSeen t), x.numSeen_le⟩ := by
  unfold enter
  dsimp only
  split
  next hsome =>
    rw [h] at hsome
    contradiction
  · rw [dif_neg hfull]

theorem of_enter_ok (h : x.enter t = .ok y) :
    y.workspace = x.workspace ∧ y.builder = x.builder ∧
      y.residuals.seen = (x.residuals.seen.number t).2 := by
  cases hfind : x.residuals.seen.find? t with
  | some i =>
    cases (enter_of_seen hfind).symm.trans h
    rw [Numbering.number_of_get? (Numbering.find?_eq_some_iff.1 hfind)]
    exact ⟨rfl, rfl, rfl⟩
  | none =>
    by_cases hroom : x.residuals.numSeen < room
    · obtain ⟨_, hx⟩ := enter_of_room hfind hroom
      cases hx.symm.trans h
      rw [Numbering.number_of_not_mem hfind]
      exact ⟨rfl, rfl, rfl⟩
    · have hx := enter_of_full hfind hroom
      cases hx.symm.trans h

theorem of_enter_error (h : x.enter t = .error y) :
    y.workspace = x.workspace ∧ t ∉ x.residuals.seen ∧ room ≤ x.residuals.numSeen := by
  cases hfind : x.residuals.seen.find? t with
  | some i => cases (enter_of_seen hfind).symm.trans h
  | none =>
    by_cases hroom : x.residuals.numSeen < room
    · obtain ⟨_, hx⟩ := enter_of_room hfind hroom
      cases hx.symm.trans h
    · have hx := enter_of_full hfind hroom
      cases hx.symm.trans h
      exact ⟨rfl, Numbering.find?_eq_none_iff.1 hfind, Nat.le_of_not_lt hroom⟩

end Enter

theorem invariant_start (hw : w.Sound) (he : e < w.numTerms) (h : 0 < room) :
    (start w e a h).Invariant w e a 0 none :=
  ⟨rfl, Builder.explores_start hw he⟩

theorem reaches_enter {m k : Nat} {t : TermId} {c : Char} {x : Construction room}
    (hx : x.Invariant w e a m (some k)) (ht : x.residuals.seen.get? m = some t)
    (hc : a.symbol? k = some c) :
    let r := x.workspace.derivative t c
    Reaches w e a
      (fun y => (y.connect t k r.1).Invariant w e a m (some (k + 1)) ∧
        y.residuals.seen.get? m = some t)
      (enter ⟨r.2, x.residuals, x.builder, x.log, x.numSeen_le⟩ r.1) := by
  obtain ⟨hkeys, hexplores⟩ := hx
  have hkey : x.builder.keys.get? m = some t := by rw [hkeys, ht]
  have hconnect := hexplores.connect hkey hc
  have hres := hexplores.residual t (Numbering.mem_of_get? hkey)
  have hlearns := (Workspace.derives_derivative hexplores.learns.sound hres.1 c).learns
  have hres' := hres.derivative hexplores.learns.sound (Array.mem_of_getElem? hc)
  generalize x.workspace.derivative t c = r at hlearns hres' hconnect
  obtain ⟨d, workspace'⟩ := r
  dsimp only at hlearns hres' hconnect ⊢
  cases hy : enter ⟨workspace', x.residuals, x.builder, x.log, x.numSeen_le⟩ d with
  | error y =>
    obtain ⟨hworkspace, hnew, hfull⟩ := of_enter_error hy
    dsimp only at hworkspace hnew hfull
    rw [← hworkspace] at hlearns hres'
    -- the residuals met so far fill the room, and the new one is one too many
    refine ⟨hexplores.learns.trans hlearns, d :: x.residuals.seen.toArray.toList, ?_, ?_, ?_⟩
    · rw [List.nodup_cons, Array.mem_toList_iff]
      exact ⟨hnew, x.residuals.seen.nodup_toList⟩
    · exact Nat.lt_succ_of_le hfull
    · intro u hu
      rw [List.mem_cons, Array.mem_toList_iff] at hu
      rcases hu with rfl | hu
      · exact hres'
      · apply (hexplores.residual u _).mono hlearns
        rw [hkeys]
        exact hu
  | ok y =>
    obtain ⟨hworkspace, hbuilder, hseen⟩ := of_enter_ok hy
    obtain ⟨_, residuals', _, log', hroom'⟩ := y
    dsimp only at hworkspace hbuilder hseen
    obtain rfl := hworkspace.symm
    obtain rfl := hbuilder.symm
    refine ⟨⟨?_, hconnect⟩, ?_⟩
    · show (x.builder.connect t k d).keys = residuals'.seen
      rw [Builder.keys_connect hkey, hseen, hkeys]
    · show residuals'.seen.get? m = some t
      rw [hseen]
      exact Numbering.get?_number_of_get? ht

theorem reaches_follow {m : Nat} {t : TermId} {symbols : List Char} {k : Nat}
    {x : Construction room} (hx : x.Invariant w e a m (some k))
    (ht : x.residuals.seen.get? m = some t) (hk : a.symbols.drop k = symbols) (hle : k ≤ a.size) :
    Reaches w e a (Invariant w e a (m + 1) none) (x.follow t k symbols) := by
  -- by induction on the symbols that are left after the first `k` ones
  induction symbols generalizing k x with
  | nil =>
    obtain rfl : k = a.size := Nat.le_antisymm hle (List.drop_eq_nil_iff.1 hk)
    exact ⟨hx.keys_eq, hx.explores.succ⟩
  | cons c symbols ih =>
    have hc : a.symbol? k = some c := by
      rw [Alphabet.symbol?, ← Array.getElem?_toList]
      show a.symbols[k]? = some c
      rw [← List.head?_drop, hk, List.head?_cons]
    have henter := reaches_enter hx ht hc
    dsimp only at henter
    simp only [follow]
    generalize enter _ (x.workspace.derivative t c).1 = r at henter
    cases r with
    | error y => exact henter
    | ok y =>
      apply ih henter.1 henter.2
      · rw [← List.tail_drop, hk, List.tail_cons]
      · exact (Array.getElem?_eq_some_iff.1 hc).1

theorem reaches_finish {x : Construction room} (hx : x.Invariant w e a x.residuals.cursor none)
    {t : TermId} {residuals : Worklist TermId} (hp : x.residuals.pop = some (t, residuals)) :
    Reaches w e a (fun y => y.Invariant w e a y.residuals.cursor none)
      (x.finish t residuals (x.numSeen_le_of_pop hp) a.symbols) := by
  have hget := Worklist.get?_cursor_of_pop hp
  have hseen := Worklist.seen_of_pop hp
  have hkey : x.builder.keys.get? x.residuals.cursor = some t := by rw [hx.keys_eq, hget]
  have hmark := hx.explores.mark hkey
  have hkeys : (if x.workspace.store.nullable t then x.builder.markFinal t else x.builder).keys =
      residuals.seen := by
    rw [hseen, ← hx.keys_eq]
    split
    · apply Builder.keys_markFinal hkey
    · rfl
  have hfollow : Reaches w e a (Invariant w e a (x.residuals.cursor + 1) none)
      (x.finish t residuals (x.numSeen_le_of_pop hp) a.symbols) := by
    apply reaches_follow (m := x.residuals.cursor) ⟨hkeys, hmark⟩
    · show residuals.seen.get? x.residuals.cursor = some t
      rw [hseen, hget]
    · apply List.drop_zero
    · apply Nat.zero_le
  apply hfollow.imp
  intro y hy hinv
  rw [cursor_finish hy, Worklist.cursor_of_pop hp]
  exact hinv

end Steps

section Run

theorem reaches_run {x : Construction room} (hx : x.Invariant w e a x.residuals.cursor none) :
    Reaches w e a (fun y => y.Invariant w e a y.residuals.numSeen none) (x.run a.symbols) := by
  fun_induction run x a.symbols with
  | case1 x hp =>
    show x.Invariant w e a x.residuals.numSeen none
    rw [← Worklist.cursor_of_pop_none hp]
    exact hx
  | case2 x t residuals hp y hy =>
    have h := reaches_finish hx hp
    rw [hy] at h
    exact h
  | case3 x t residuals hp y hy ih =>
    have h := reaches_finish hx hp
    rw [hy] at h
    exact ih h

theorem run_of_pop_none {x : Construction room} {symbols : List Char}
    (hp : x.residuals.pop = none) : x.run symbols = .ok x := by
  rw [run]
  split
  · rfl
  next hp' =>
    rw [hp] at hp'
    contradiction

theorem run_of_pop {x : Construction room} {symbols : List Char} {t : TermId} {q : Worklist TermId}
    (hp : x.residuals.pop = some (t, q)) :
    x.run symbols = (x.finish t q (x.numSeen_le_of_pop hp) symbols).bind (·.run symbols) := by
  rw [run]
  split
  next hp' =>
    rw [hp] at hp'
    contradiction
  next hp' =>
    cases hp.symm.trans hp'
    split
    next hf =>
      rw [hf]
      rfl
    next hf =>
      rw [hf]
      rfl

def Together (p : Construction room → Construction room → Prop) :
    Except (Construction room) (Construction room) →
      Except (Construction room) (Construction room) → Prop
  | .ok x, .ok y => p x y
  | .error _, .error _ => True
  | _, _ => False

theorem together_run {p : Construction room → Construction room → Prop} {symbols : List Char}
    (hstop : ∀ x y, p x y → x.residuals.pop = none → y.residuals.pop = none)
    (hstep : ∀ x y, p x y → ∀ t q (hx : x.residuals.pop = some (t, q)), ∃ u q',
      ∃ hy : y.residuals.pop = some (u, q'),
        Together p (x.finish t q (x.numSeen_le_of_pop hx) symbols)
          (y.finish u q' (y.numSeen_le_of_pop hy) symbols))
    {x y : Construction room} (h : p x y) : Together p (x.run symbols) (y.run symbols) := by
  fun_induction run x symbols generalizing y with
  | case1 x hx =>
    rw [run_of_pop_none (hstop x y h hx)]
    exact h
  | case2 x t q hx x' hx' =>
    obtain ⟨u, q', hy, htogether⟩ := hstep x y h t q hx
    rw [run_of_pop hy]
    rw [hx'] at htogether
    cases hy' : y.finish u q' (y.numSeen_le_of_pop hy) symbols with
    | error y' => exact True.intro
    | ok y' =>
      rw [hy'] at htogether
      exact htogether.elim
  | case3 x t q hx x' hx' ih =>
    obtain ⟨u, q', hy, htogether⟩ := hstep x y h t q hx
    rw [run_of_pop hy]
    rw [hx'] at htogether
    cases hy' : y.finish u q' (y.numSeen_le_of_pop hy) symbols with
    | error y' =>
      rw [hy'] at htogether
      exact htogether.elim
    | ok y' =>
      rw [hy'] at htogether
      exact ih htogether

end Run

section Workspace

def reached : Except (Construction room) (Construction room) → Workspace
  | .ok x | .error x => x.workspace

theorem reached_enter (x : Construction room) (t : TermId) : reached (x.enter t) = x.workspace := by
  cases h : x.enter t with
  | ok y => exact (of_enter_ok h).1
  | error y => exact (of_enter_error h).1

end Workspace

end Construction

end Residual
