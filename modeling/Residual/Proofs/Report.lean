import Residual.Proofs.Discovery
import Residual.Proofs.Failure
import Residual.Proofs.Text.Term

/-!
This module contains what a compilation reports. The states are announced one by one as they get
their numbers, and under a larger limit a construction repeats what it said before it was given up.
-/

namespace Residual

open Std

section Announce

def announced (keys : Numbering TermId) : List LogEntry :=
  keys.toArray.toList.zipIdx.tail.map fun p => .newState p.2 p.1

theorem announced_push {keys : Numbering TermId} (hpos : 0 < keys.size) {t : TermId}
    (h : keys.find? t = none) :
    announced (keys.push t h) = announced keys ++ [.newState keys.size t] := by
  have hne : keys.toArray.toList.zipIdx ≠ [] := by
    rw [Ne, List.zipIdx_eq_nil_iff]
    intro hnil
    rw [Numbering.size, ← Array.length_toList, hnil] at hpos
    contradiction
  have hpush : (keys.push t h).toArray.toList = keys.toArray.toList ++ [t] := Array.toList_push
  rw [announced, hpush, List.zipIdx_append, List.tail_append_of_ne_nil hne, List.map_append,
    List.zipIdx_singleton, List.map_singleton, Nat.zero_add, Array.length_toList]
  rfl

theorem announced_eq {keys : Numbering TermId} {term : Nat → TermId}
    (h : ∀ i < keys.size, keys.get? i = some (term i)) :
    announced keys = (List.range' 1 (keys.size - 1)).map fun i => .newState i (term i) := by
  unfold announced
  apply List.ext_getElem
  · simp [Numbering.size]
  · intro i hi hi'
    have hlt : i + 1 < keys.size := by
      rw [List.length_map, List.length_range'] at hi'
      omega
    have hterm : keys.toArray.toList[i + 1] = term (i + 1) :=
      Option.some.inj ((Array.getElem?_eq_getElem hlt).symm.trans (h (i + 1) hlt))
    rw [List.getElem_map, List.getElem_map, List.getElem_tail, List.getElem_zipIdx,
      List.getElem_range', Nat.one_mul, Nat.zero_add, Nat.add_comm 1 i]
    exact congrArg (LogEntry.newState (i + 1)) hterm

end Announce

namespace Construction

variable {room room' : Nat} {x : Construction room} {t d : TermId} {k : Nat} {c : Char}
  {symbols : List Char}

def told : Except (Construction room) (Construction room) → List LogEntry
  | .ok x | .error x => x.log.toList

section Reports

structure Reports (r : Except (Construction room) (Construction room)) : Prop where
  newState : ∀ entry ∈ told r, ∃ i t, entry = .newState i t ∧ t < (reached r).numTerms
  announced : ∀ y, r = .ok y → 0 < y.residuals.numSeen ∧
    y.log.toList = Residual.announced y.residuals.seen

theorem Reports.bind {r : Except (Construction room) (Construction room)}
    {f : Construction room → Except (Construction room) (Construction room)} (h : Reports r)
    (hf : ∀ y, r = .ok y → Reports (f y)) : Reports (r.bind f) := by
  cases r with
  | error y => exact ⟨h.newState, nofun⟩
  | ok y => exact hf y rfl

theorem reports_start (w : Workspace) (e : TermId) (a : Alphabet) (h : 0 < room) :
    Reports (.ok (start w e a h)) := by
  constructor
  · intro entry hentry
    exact absurd hentry List.not_mem_nil
  · rintro y ⟨⟩
    exact ⟨Nat.zero_lt_one, rfl⟩

theorem Reports.enter (h : Reports (.ok x)) (hd : d < x.workspace.numTerms) :
    Reports (x.enter d) := by
  obtain ⟨hpos, hlog⟩ := h.announced x rfl
  have hnew : ∀ entry ∈ (x.log.push (.newState x.residuals.numSeen d)).toList,
      ∃ i t, entry = .newState i t ∧ t < x.workspace.numTerms := by
    intro entry hentry
    rw [Array.toList_push, List.mem_append, List.mem_singleton] at hentry
    rcases hentry with hentry | rfl
    · exact h.newState entry hentry
    · exact ⟨_, _, rfl, hd⟩
  cases hfind : x.residuals.seen.find? d with
  | some i =>
    rw [enter_of_seen hfind]
    exact h
  | none =>
    by_cases hroom : x.residuals.numSeen < room
    · obtain ⟨_, hy⟩ := enter_of_room hfind hroom
      rw [hy]
      refine ⟨hnew, ?_⟩
      rintro y ⟨⟩
      constructor
      · rw [Worklist.numSeen_pushNew]
        exact Nat.succ_pos _
      · rw [Array.toList_push, hlog]
        exact (announced_push hpos hfind).symm
    · rw [enter_of_full hfind hroom]
      exact ⟨hnew, nofun⟩

theorem Reports.learn (h : Reports (.ok x)) {w : Workspace} (hw : x.workspace.Learns w) :
    Reports (.ok { x with workspace := w }) := by
  refine ⟨fun entry hentry => ?_, ?_⟩
  · obtain ⟨i, t, heq, ht⟩ := h.newState entry hentry
    exact ⟨i, t, heq, hw.ext.lt_size ht⟩
  · rintro y ⟨⟩
    exact h.announced x rfl

theorem Reports.step (h : Reports (.ok x)) (hx : x.Issued) (ht : t < x.workspace.numTerms) (k : Nat)
    (c : Char) : Reports (x.step t k c) := by
  have hderives := Workspace.derives_derivative hx.sound ht c
  apply ((h.learn hderives.learns).enter hderives.lt_numTerms).bind
  intro y hy
  have henter := (h.learn hderives.learns).enter hderives.lt_numTerms
  rw [hy] at henter
  refine ⟨henter.newState, ?_⟩
  rintro z ⟨⟩
  exact henter.announced y rfl

theorem Reports.follow (h : Reports (.ok x)) (hx : x.Issued) (ht : t < x.workspace.numTerms)
    (k : Nat) (symbols : List Char) : Reports (x.follow t k symbols) := by
  induction symbols generalizing x k with
  | nil => exact h
  | cons c symbols ih =>
    have hreports := h.step hx ht k c
    have hadvances := hx.advances_step ht k c
    rw [follow_cons]
    apply hreports.bind
    intro y hy
    have hlearns := hadvances.learns
    rw [hy] at hreports hlearns
    exact ih hreports (hadvances.issued y hy) (hlearns.ext.lt_size ht) (k + 1)

theorem Reports.finish (h : Reports (.ok x)) (hx : x.Issued) {q : Worklist TermId}
    (hp : x.residuals.pop = some (t, q)) (symbols : List Char) :
    Reports (x.finish t q (x.numSeen_le_of_pop hp) symbols) := by
  have hleave : Reports (.ok (x.leave t q (x.numSeen_le_of_pop hp))) := by
    refine ⟨h.newState, ?_⟩
    rintro y ⟨⟩
    have hannounced := h.announced x rfl
    rw [Worklist.numSeen, ← Worklist.seen_of_pop hp] at hannounced
    exact hannounced
  rw [finish_eq]
  exact hleave.follow (hx.leave hp) (hx.lt_of_pop hp) 0 symbols

theorem Reports.run (h : Reports (.ok x)) (hx : x.Issued) (symbols : List Char) :
    Reports (x.run symbols) := by
  fun_induction Construction.run x symbols with
  | case1 x hp => exact h
  | case2 x t q hp y hy =>
    rw [← hy]
    exact h.finish hx hp symbols
  | case3 x t q hp y hy ih =>
    have hfinish := h.finish hx hp symbols
    rw [hy] at hfinish
    exact ih hfinish ((hx.advances_finish hp symbols).issued y hy)

end Reports

section Growth

theorem told_bind {r : Except (Construction room) (Construction room)}
    {f : Construction room → Except (Construction room) (Construction room)}
    (hf : ∀ y, y.log.toList <+: told (f y)) : told r <+: told (r.bind f) := by
  cases r with
  | error y => exact List.prefix_refl _
  | ok y => exact hf y

theorem prefix_enter (x : Construction room) (d : TermId) :
    x.log.toList <+: told (x.enter d) := by
  cases hfind : x.residuals.seen.find? d with
  | some i =>
    rw [enter_of_seen hfind]
    exact List.prefix_refl _
  | none =>
    by_cases hroom : x.residuals.numSeen < room
    · obtain ⟨_, hy⟩ := enter_of_room hfind hroom
      rw [hy, told, Array.toList_push]
      exact List.prefix_append _ _
    · rw [enter_of_full hfind hroom, told, Array.toList_push]
      exact List.prefix_append _ _

theorem told_step (x : Construction room) (t : TermId) (k : Nat) (c : Char) :
    told (x.step t k c) = told (enter { x with workspace := (x.workspace.derivative t c).2 }
      (x.workspace.derivative t c).1) := by
  unfold step
  dsimp only
  cases enter { x with workspace := (x.workspace.derivative t c).2 }
    (x.workspace.derivative t c).1 with
  | error y => rfl
  | ok y => rfl

theorem prefix_step (x : Construction room) (t : TermId) (k : Nat) (c : Char) :
    x.log.toList <+: told (x.step t k c) := by
  rw [told_step]
  exact prefix_enter { x with workspace := (x.workspace.derivative t c).2 } _

theorem prefix_follow (x : Construction room) (t : TermId) (k : Nat) (symbols : List Char) :
    x.log.toList <+: told (x.follow t k symbols) := by
  induction symbols generalizing x k with
  | nil => exact List.prefix_refl _
  | cons c symbols ih =>
    rw [follow_cons]
    exact (x.prefix_step t k c).trans (told_bind fun y => ih y (k + 1))

theorem prefix_run (x : Construction room) (symbols : List Char) :
    x.log.toList <+: told (x.run symbols) := by
  fun_induction run x symbols with
  | case1 x hp => exact List.prefix_refl _
  | case2 x t q hp y hy =>
    rw [← hy, finish_eq]
    exact (x.leave t q (x.numSeen_le_of_pop hp)).prefix_follow t 0 symbols
  | case3 x t q hp y hy ih =>
    have hfollow := (x.leave t q (x.numSeen_le_of_pop hp)).prefix_follow t 0 symbols
    rw [← finish_eq, hy] at hfollow
    exact hfollow.trans ih

end Growth

section Guide

variable {R : Workspace → Workspace → Prop} {w : Workspace} {x' : Construction room}
  {y : Construction room'}

theorem Alike.told_enter (h : Alike R x y) (hx : x.enter d = .error x') :
    told (y.enter d) = x'.log.toList := by
  cases hfind : x.residuals.seen.find? d with
  | some i => cases (enter_of_seen hfind).symm.trans hx
  | none =>
    have hfind' : y.residuals.seen.find? d = none := h.residuals_eq ▸ hfind
    by_cases hroom : x.residuals.numSeen < room
    · obtain ⟨_, hok⟩ := enter_of_room hfind hroom
      cases hok.symm.trans hx
    · cases (enter_of_full hfind hroom).symm.trans hx
      have hlog : (y.log.push (.newState y.residuals.numSeen d)).toList =
          (x.log.push (.newState x.residuals.numSeen d)).toList := by
        rw [h.residuals_eq, h.log_eq]
      by_cases hroom' : y.residuals.numSeen < room'
      · obtain ⟨_, hy⟩ := enter_of_room hfind' hroom'
        rw [hy]
        exact hlog
      · rw [enter_of_full hfind' hroom']
        exact hlog

variable (hR : Carries R w)

include hR

theorem Alike.told_step (h : Alike R x y) (hx : x.workspace.Sound) (ht : t < x.workspace.numTerms)
    (hw : (x.workspace.derivative t c).2.Learns w) (hstep : x.step t k c = .error x') :
    told (y.step t k c) = x'.log.toList := by
  obtain ⟨v, hv, hRv⟩ := hR.derivative _ _ t c h.workspace hx ht hw
  have halike : Alike R { x with workspace := (x.workspace.derivative t c).2 }
      { y with workspace := v } := ⟨hRv, h.residuals_eq, h.builder_eq, h.log_eq⟩
  rw [Construction.told_step, hv]
  apply halike.told_enter
  unfold Construction.step at hstep
  dsimp only at hstep
  cases henter : Construction.enter { x with workspace := (x.workspace.derivative t c).2 }
      (x.workspace.derivative t c).1 with
  | error z =>
    rw [henter] at hstep
    exact hstep
  | ok z =>
    rw [henter] at hstep
    contradiction

variable (hle : room ≤ room')

include hle

theorem Alike.prefix_follow (h : Alike R x y) (hx : x.Issued) (ht : t < x.workspace.numTerms)
    (hfollow : x.follow t k symbols = .error x') (hw : x'.workspace.Learns w) :
    x'.log.toList <+: told (y.follow t k symbols) := by
  induction symbols generalizing x y k with
  | nil => contradiction
  | cons c symbols ih =>
    have hadvances := hx.advances_step ht k c
    have hrest : ∀ z, x.step t k c = .ok z → t < z.workspace.numTerms := by
      intro z hz
      have hlearns := hadvances.learns
      rw [hz] at hlearns
      exact hlearns.ext.lt_size ht
    have hlearns : (x.workspace.derivative t c).2.Learns w := by
      rw [← reached_step x t k c]
      apply learns_of_bind (f := fun z => z.follow t (k + 1) symbols)
        (fun z hz => (hadvances.issued z hz).advances_follow (hrest z hz) (k + 1) symbols)
      rw [← follow_cons, hfollow]
      exact hw
    rw [follow_cons] at hfollow
    rw [follow_cons]
    cases hstep : x.step t k c with
    | error z =>
      rw [hstep] at hfollow
      cases hfollow
      rw [← h.told_step hR hx.sound ht hlearns hstep]
      exact told_bind fun z => z.prefix_follow t (k + 1) symbols
    | ok z =>
      have haccompanies := h.step hR hle hx.sound ht k c hlearns
      rw [hstep] at hfollow haccompanies
      obtain ⟨z', hz', halike⟩ := haccompanies
      rw [hz']
      exact ih halike (hadvances.issued z hstep) (hrest z hstep) hfollow

theorem Alike.prefix_run (h : Alike R x y) (hx : x.Issued) (hrun : x.run symbols = .error x')
    (hw : x'.workspace.Learns w) : x'.log.toList <+: told (y.run symbols) := by
  fun_induction Construction.run x symbols generalizing y with
  | case1 x hp => contradiction
  | case2 x t q hp z hz =>
    cases hrun
    have hp' : y.residuals.pop = some (t, q) := h.residuals_eq ▸ hp
    have halike := h.leave hR (hx.lt_of_pop hp) (x.numSeen_le_of_pop hp) (y.numSeen_le_of_pop hp')
    have hfollow := halike.prefix_follow hR hle (hx.leave hp) (hx.lt_of_pop hp) hz hw
    rw [run_of_pop hp']
    exact hfollow.trans (told_bind fun z => z.prefix_run symbols)
  | case3 x t q hp z hz ih =>
    have hp' : y.residuals.pop = some (t, q) := h.residuals_eq ▸ hp
    have hissued := (hx.advances_finish hp symbols).issued z hz
    have hlearns := (hissued.advances_run symbols).learns
    rw [hrun] at hlearns
    have hlearns : (reached (x.finish t q (x.numSeen_le_of_pop hp) symbols)).Learns w := by
      rw [hz]
      exact hlearns.trans hw
    have haccompanies := h.finish hR hle hx hp (y.numSeen_le_of_pop hp') hlearns
    rw [hz] at haccompanies
    obtain ⟨z', hz', halike⟩ := haccompanies
    rw [run_of_pop hp', hz']
    exact ih halike hissued hrun

end Guide

end Construction

namespace LogEntry

theorem text_newState (s : Store) (i : StateId) (t : TermId) :
    text s (.newState i t) = "TRACE new state " ++ Nat.repr i ++ ": " ++ s.text t := by
  have hprefix : "TRACE" ++ " " ++ "new state " = "TRACE new state " := by decide
  show "TRACE" ++ " " ++ ("new state " ++ Nat.repr i ++ ": " ++ s.text t) = _
  rw [← hprefix]
  simp only [String.append_assoc]

theorem text_aborted (s : Store) (t : TermId) (limit : Nat) :
    text s (.aborted t limit) =
      "WARN aborting construction for " ++ t.text ++ ": more than " ++ Nat.repr limit ++
        " states" := by
  have hprefix : "WARN" ++ " " ++ "aborting construction for " =
      "WARN aborting construction for " := by decide
  show "WARN" ++ " " ++ ("aborting construction for " ++ t.text ++ ": more than " ++
    Nat.repr limit ++ " states") = _
  rw [← hprefix]
  simp only [String.append_assoc]

theorem text_compiled (s : Store) (t : TermId) (a : Alphabet) (states finals terms : Nat) :
    text s (.compiled t a states finals terms) =
      "DEBUG compiled " ++ t.text ++ " over " ++ a.text ++ ": " ++ Nat.repr states ++ " states, " ++
        Nat.repr finals ++ " final, " ++ Nat.repr terms ++ " terms in store" := by
  have hprefix : "DEBUG" ++ " " ++ "compiled " = "DEBUG compiled " := by decide
  show "DEBUG" ++ " " ++ ("compiled " ++ t.text ++ " over " ++ a.text ++ ": " ++
    Nat.repr states ++ " states, " ++ Nat.repr finals ++ " final, " ++ Nat.repr terms ++
    " terms in store") = _
  rw [← hprefix]
  simp only [String.append_assoc]

theorem text_eq_of_extends {s s' : Store} (h : s.Extends s') (i : StateId) {t : TermId}
    (ht : t < s.size) : text s (.newState i t) = text s' (.newState i t) := by
  rw [text_newState, text_newState, h.text_eq ht]

end LogEntry

namespace Workspace

variable {w : Workspace} {e : TermId} {a : Alphabet} {auto : Automaton}

def logLines (r : Logged (Except Error Automaton × Workspace)) : List String :=
  r.log.toList.map (LogEntry.text r.value.2.store)

def traceLines (r : Logged (Except Error Automaton × Workspace)) : List String :=
  (r.log.toList.filter (·.level = .trace)).map (LogEntry.text r.value.2.store)

section Log

open Construction

theorem filter_conclude {room : Nat} {r : Except (Construction room) (Construction room)}
    (hr : Reports r) (t : TermId) (a : Alphabet) (limit : Nat) :
    (conclude t a limit r).log.toList.filter (·.level = .trace) = told r := by
  have htold : (told r).filter (·.level = .trace) = told r := by
    rw [List.filter_eq_self]
    intro entry hentry
    obtain ⟨i, u, rfl, _⟩ := hr.newState entry hentry
    rfl
  have hpush : ∀ (log : Array LogEntry) (entry : LogEntry), entry.level ≠ .trace →
      (log.push entry).toList.filter (·.level = .trace) = log.toList.filter (·.level = .trace) := by
    intro log entry hentry
    rw [Array.toList_push, List.filter_append, List.filter_singleton, decide_eq_false hentry,
      cond_false, List.append_nil]
  cases r with
  | error x => exact (hpush x.log _ LogLevel.noConfusion).trans htold
  | ok x =>
    unfold conclude
    dsimp only
    split
    · exact htold
    · exact (hpush x.log _ LogLevel.noConfusion).trans htold

variable (hw : w.Sound) (he : e < w.numTerms)

include hw he

theorem reports_run (a : Alphabet) (hroom : 0 < max 1 w.maxStates) :
    Reports ((start w e a hroom).run a.symbols) :=
  (reports_start w e a hroom).run (issued_start hw he a hroom) a.symbols

theorem log_of_compile_ok {w' : Workspace} (h : (w.compile e a).value = (.ok auto, w')) :
    ∃ term : Nat → TermId, (∀ i < auto.numStates, auto.term? i = some (term i)) ∧
      (w.compile e a).log.toList =
        ((List.range' 1 (auto.numStates - 1)).map fun i => .newState i (term i)) ++
          [.compiled e a auto.numStates auto.numFinals w'.numTerms] := by
  have hroom : 0 < max 1 w.maxStates := by omega
  obtain ⟨x, built, hrun, hbuild, hauto, rfl⟩ := run_of_compile_ok hroom h
  have hreports := reports_run hw he a hroom
  have hreaches := reaches_run (x := start w e a hroom) (invariant_start hw he hroom)
  rw [hrun] at hreports hreaches
  have hlog : (w.compile e a).log.toList = x.log.toList ++
      [.compiled e a auto.numStates auto.numFinals x.workspace.numTerms] := by
    rcases checkCovers_cases a (w.store.symbolsOf e) with hcovers | ⟨c, hcovers, _, _⟩
    · rw [compile_of_covered hcovers hroom, hrun]
      simp only [conclude, hbuild, ← hauto, Array.toList_push]
    · rw [compile_of_error hcovers] at h
      cases h
  have hmakes := Builder.makes_of_build hbuild
  have hsize : auto.numStates = x.residuals.seen.size := by
    rw [hauto, Builder.numStates_attachTerms hmakes, hreaches.keys_eq]
  have hterm : ∀ i, auto.term? i = x.residuals.seen.get? i := by
    intro i
    rw [hauto, Builder.term?_attachTerms hmakes, hreaches.keys_eq]
  have hsome : ∀ i < x.residuals.seen.size,
      x.residuals.seen.get? i = some ((x.residuals.seen.get? i).getD e) := by
    intro i hi
    obtain ⟨t, ht⟩ := Numbering.get?_of_lt hi
    rw [ht, Option.getD_some]
  refine ⟨fun i => (x.residuals.seen.get? i).getD e, ?_, ?_⟩
  · intro i hi
    rw [hterm]
    exact hsome i (hsize ▸ hi)
  · rw [hlog, (hreports.announced x rfl).2, announced_eq hsome, hsize]

theorem log_of_compile_error {limit : Nat}
    (h : (w.compile e a).value.1 = .error (.tooManyStates limit)) (hroom : 0 < max 1 w.maxStates) :
    a.checkCovers (w.store.symbolsOf e) = .ok () ∧
      ∃ x, (start w e a hroom).run a.symbols = .error x ∧
        (w.compile e a).value = (.error (.tooManyStates w.maxStates), x.workspace) ∧
        (w.compile e a).log.toList = x.log.toList ++ [.aborted e w.maxStates] := by
  obtain ⟨hcovers, x, hrun, -⟩ := run_of_compile_error hw he h hroom
  refine ⟨hcovers, x, hrun, ?_⟩
  rw [compile_of_covered hcovers hroom, hrun, conclude, Array.toList_push]
  exact ⟨rfl, rfl⟩

theorem filter_compile (hcovers : a.checkCovers (w.store.symbolsOf e) = .ok ())
    (hroom : 0 < max 1 w.maxStates) :
    (w.compile e a).log.toList.filter (·.level = .trace) =
      told ((start w e a hroom).run a.symbols) := by
  rw [compile_of_covered hcovers hroom]
  exact filter_conclude (reports_run hw he a hroom) e a w.maxStates

theorem extends_of_compile_error
    (h : (w.compile e a).value.1 = .error (.tooManyStates w.maxStates)) {limit : Nat}
    (hle : w.maxStates ≤ limit) :
    (w.compile e a).value.2.store.Extends ((w.setMaxStates limit).compile e a).value.2.store := by
  have hlearns := learns_compile hw he a
  have hresumes : ((w.compile e a).value.2.setMaxStates limit).compile e a =
      (w.setMaxStates limit).compile e a := compile_resumes hw he hle h
  rw [← hresumes]
  have hsound := hlearns.sound.setMaxStates limit
  exact (learns_compile hsound (hlearns.ext.lt_size he) a).ext

theorem lines_of_compile_ok {w' : Workspace} (h : (w.compile e a).value = (.ok auto, w')) :
    ∃ term : Nat → TermId, (∀ i < auto.numStates, auto.term? i = some (term i)) ∧
      logLines (w.compile e a) =
        ((List.range' 1 (auto.numStates - 1)).map fun i =>
            "TRACE new state " ++ Nat.repr i ++ ": " ++ w'.store.text (term i)) ++
          ["DEBUG compiled " ++ e.text ++ " over " ++ a.text ++ ": " ++ Nat.repr auto.numStates ++
            " states, " ++ Nat.repr {i | auto.accepting i = true}.ncard ++ " final, " ++
            Nat.repr w'.numTerms ++ " terms in store"] := by
  obtain ⟨term, hterm, hlog⟩ := log_of_compile_ok hw he h
  have hfinals : {i | auto.accepting i = true}.ncard = auto.numFinals := by
    have hnodup : auto.finals.Nodup := List.nodup_range.filter _
    have hencard := encard_eq_length_of_nodup hnodup (S := {i | auto.accepting i = true})
      fun i => Automaton.mem_finals_iff.symm
    rw [Set.ncard, hencard, ENat.toNat_natCast, Automaton.numFinals_eq_length]
  refine ⟨term, hterm, ?_⟩
  rw [logLines, hlog, h, List.map_append, List.map_map, List.map_singleton, LogEntry.text_compiled,
    hfinals]
  refine congrArg (· ++ _) (List.map_congr_left fun i _ => ?_)
  exact LogEntry.text_newState w'.store i (term i)

theorem prefix_of_run_error {x : Construction (max 1 w.maxStates)} {hroom : 0 < max 1 w.maxStates}
    (hrun : (start w e a hroom).run a.symbols = .error x) {limit : Nat} (hle : w.maxStates ≤ limit)
    (hroom' : 0 < max 1 (w.setMaxStates limit).maxStates) :
    x.log.toList <+: told ((start (w.setMaxStates limit) e a hroom').run a.symbols) := by
  have hissued := issued_start hw he a hroom
  have hlearns := (hissued.advances_run a.symbols).learns
  rw [hrun] at hlearns
  have halike : Alike (fun u v => v = u.setMaxStates limit) (start w e a hroom)
      (start (w.setMaxStates limit) e a hroom') := ⟨rfl, rfl, rfl, rfl⟩
  have hmax : max 1 w.maxStates ≤ max 1 (w.setMaxStates limit).maxStates := by
    show max 1 w.maxStates ≤ max 1 limit
    omega
  exact halike.prefix_run (carries_setMaxStates limit x.workspace) hmax hissued hrun
    (.refl hlearns.sound)

theorem lines_of_compile_error {limit : Nat}
    (h : (w.compile e a).value.1 = .error (.tooManyStates limit)) :
    logLines (w.compile e a) = traceLines (w.compile e a) ++
        ["WARN aborting construction for " ++ e.text ++ ": more than " ++ Nat.repr w.maxStates ++
          " states"] ∧
      ∀ limit', w.maxStates ≤ limit' →
        traceLines (w.compile e a) <+: traceLines ((w.setMaxStates limit').compile e a) := by
  have hroom : 0 < max 1 w.maxStates := by omega
  obtain ⟨hcovers, x, hrun, hvalue, hlog⟩ := log_of_compile_error hw he h hroom
  have hreports := reports_run hw he a hroom
  have htraces := filter_compile hw he hcovers hroom
  rw [hrun] at hreports htraces
  constructor
  · rw [logLines, traceLines, htraces, hlog, List.map_append, List.map_singleton,
      LogEntry.text_aborted]
    rfl
  · intro limit' hle
    have hstore := extends_of_compile_error hw he (congrArg Prod.fst hvalue) hle
    have hroom' : 0 < max 1 (w.setMaxStates limit').maxStates := by omega
    -- what the shorter log says, it says in the same words in the larger store
    have hwords : (told (.error x)).map (LogEntry.text (w.compile e a).value.2.store) =
        x.log.toList.map (LogEntry.text ((w.setMaxStates limit').compile e a).value.2.store) := by
      apply List.map_congr_left
      intro entry hentry
      obtain ⟨i, t, rfl, ht⟩ := hreports.newState entry hentry
      apply LogEntry.text_eq_of_extends hstore
      rw [hvalue]
      exact ht
    rw [traceLines, traceLines, htraces, hwords,
      filter_compile (hw.setMaxStates limit') he hcovers hroom']
    exact (prefix_of_run_error hw he hrun hle hroom').map _

end Log

/--
The log of a compilation agrees with its automaton. The new states are announced in the order of
their numbers, each with the term that it stands for, and at the end comes a summary. A compilation
that meets too many states has announced the first of those that it would find under a larger limit,
and ends with a warning. It does not matter when an entry is put into words: what is said about a
term stays the same when more terms are stored.
-/
theorem Reachable.log_exact (hw : w.Reachable) (he : e < w.numTerms) (a : Alphabet) :
    (∀ auto w', (w.compile e a).value = (.ok auto, w') →
      ∃ term : Nat → TermId, (∀ i < auto.numStates, auto.term? i = some (term i)) ∧
        logLines (w.compile e a) =
          ((List.range' 1 (auto.numStates - 1)).map fun i =>
              "TRACE new state " ++ Nat.repr i ++ ": " ++ w'.store.text (term i)) ++
            ["DEBUG compiled " ++ e.text ++ " over " ++ a.text ++ ": " ++ Nat.repr auto.numStates ++
              " states, " ++ Nat.repr {i | auto.accepting i = true}.ncard ++ " final, " ++
              Nat.repr w'.numTerms ++ " terms in store"]) ∧
    (∀ limit, (w.compile e a).value.1 = .error (.tooManyStates limit) →
      logLines (w.compile e a) = traceLines (w.compile e a) ++
          ["WARN aborting construction for " ++ e.text ++ ": more than " ++ Nat.repr w.maxStates ++
            " states"] ∧
        ∀ limit', w.maxStates ≤ limit' →
          traceLines (w.compile e a) <+: traceLines ((w.setMaxStates limit').compile e a)) ∧
    ∀ s : Store, s.Extends (w.compile e a).value.2.store → ∀ i t, t < s.size →
      LogEntry.text s (.newState i t) =
        LogEntry.text (w.compile e a).value.2.store (.newState i t) := by
  refine ⟨?_, ?_, ?_⟩
  · intro auto w' h
    exact lines_of_compile_ok hw.sound he h
  · intro limit h
    exact lines_of_compile_error hw.sound he h
  · intro s hs i t ht
    exact LogEntry.text_eq_of_extends hs i ht

theorem log_exact_symbol :
    let w := (initial 10).perform (.build (.symbol 'a'))
    let v := (initial 2).perform (.build (.symbol 'a'))
    let a := Alphabet.ofList ['a']
    w.Reachable ∧ v.Reachable ∧ 3 < w.numTerms ∧ 3 < v.numTerms ∧
      (∃ auto w', ∃ term : Nat → TermId,
        (w.compile 3 a).value = (.ok auto, w') ∧ auto.numStates = 3 ∧
        auto.term? 2 = some (term 2) ∧
        (logLines (w.compile 3 a))[1]? = some ("TRACE new state 2: " ++ w'.store.text (term 2))) ∧
      (v.compile 3 a).value.1 = .error (.tooManyStates 2) ∧
      traceLines (v.compile 3 a) <+: traceLines ((v.setMaxStates 10).compile 3 a) ∧
      LogEntry.text w.store (.newState 1 3) =
        LogEntry.text (w.compile 3 a).value.2.store (.newState 1 3) := by
  intro w v a
  have hw : w.Reachable := reachable_symbol 10 'a'
  have hv : v.Reachable := reachable_symbol 2 'a'
  have he : 3 < w.numTerms := by decide
  have he' : 3 < v.numTerms := by decide
  have hsize : (w.compile 3 a).value.1.map Automaton.numStates = .ok 3 := by decide +kernel
  have hlimit : (v.compile 3 a).value.1.map (fun _ => ()) = .error (.tooManyStates 2) := by
    decide +kernel
  have herror := error_of_map hlimit
  obtain ⟨hok, -, hwords⟩ := hw.log_exact he a
  obtain ⟨-, hfailed, -⟩ := hv.log_exact he' a
  have hprefix := (hfailed 2 herror).2 10 (by decide)
  have hgrown := (learns_compile hw.sound he a).ext
  refine ⟨hw, hv, he, he', ?_, herror, hprefix, hwords w.store hgrown 1 3 he⟩
  cases hauto : (w.compile 3 a).value.1 with
  | error e =>
    rw [hauto] at hsize
    contradiction
  | ok auto =>
    rw [hauto] at hsize
    have hstates : auto.numStates = 3 := Except.ok.inj hsize
    obtain ⟨term, hterm, hlines⟩ := hok auto _ (Prod.ext hauto rfl)
    refine ⟨auto, _, term, Prod.ext hauto rfl, hstates, hterm 2 (by omega), ?_⟩
    rw [hlines, hstates]
    rfl

end Workspace

end Residual
