import Mathlib.Data.Set.Finite.Lattice
import Residual.Automaton.LengthBound
import Residual.Proofs.Automaton.Postorder
import Residual.Proofs.Automaton.Words

/-!
This module contains the exactness of the length bound: on a post-order of the live states every
number that the longest paths take is that of a longest word, and a cycle makes words of any length.
-/

namespace Residual

namespace Automaton

variable {a : Automaton} {s d : StateId} {order : Array StateId}

section LivePath

theorem LivePath.lt_numStates {live : Array Bool} (h : a.LivePath live s d) (hs : s < a.numStates) :
    d < a.numStates := by
  induction h with
  | refl => exact hs
  | tail _ hd _ => exact successors_lt (mem_liveSuccessors_iff.1 hd).1

theorem LivePath.live {live : Array Bool} (h : a.LivePath live s d)
    (hs : live.getD s false = true) : live.getD d false = true := by
  induction h with
  | refl => exact hs
  | tail _ hd _ => exact (mem_liveSuccessors_iff.1 hd).2

theorem LivePath.exists_run {live : Array Bool} (h : a.LivePath live s d) (hs : s < a.numStates) :
    ∃ w, a.run s w = .ok d := by
  rw [exists_run_eq_iff hs]
  exact Relation.ReflTransGen.mono (fun _ _ hd => (mem_liveSuccessors_iff.1 hd).1) _ _ h

theorem mem_liveSuccessors_iff_exists_step (hs : s < a.numStates) :
    d ∈ a.liveSuccessors a.liveStates s ↔
      ∃ c, a.step s c = .ok d ∧ ∃ w, w ∈ a.languageFrom d := by
  rw [mem_liveSuccessors_iff, mem_successors_iff hs]
  constructor
  · rintro ⟨⟨c, hc⟩, hlive⟩
    exact ⟨c, hc, (liveStates_iff (lt_of_step hc)).1 hlive⟩
  · rintro ⟨c, hc, hlive⟩
    exact ⟨⟨c, hc⟩, (liveStates_iff (lt_of_step hc)).2 hlive⟩

end LivePath

section Cycle

theorem OnCycle.exists_run {live : Array Bool} (h : a.OnCycle live s) (hs : s < a.numStates) :
    ∃ c v, a.run s (c :: v) = .ok s := by
  obtain ⟨d, hd, hpath⟩ := Relation.TransGen.head'_iff.1 h
  obtain ⟨c, hc⟩ := (mem_successors_iff hs).1 (mem_liveSuccessors_iff.1 hd).1
  obtain ⟨v, hv⟩ := LivePath.exists_run hpath (lt_of_step hc)
  exact ⟨c, v, run_cons_eq_ok_iff.2 ⟨d, hc, hv⟩⟩

theorem OnCycle.exists_le_length {live : Array Bool} (h : a.OnCycle live s) (hs : s < a.numStates)
    (hlive : ∃ w, w ∈ a.languageFrom s) (k : Nat) : ∃ w ∈ a.languageFrom s, k ≤ w.length := by
  obtain ⟨c, v, hcycle⟩ := h.exists_run hs
  induction k with
  | zero =>
    obtain ⟨w, hw⟩ := hlive
    exact ⟨w, hw, Nat.zero_le _⟩
  | succ k ih =>
    -- one more round is longer by at least one symbol
    obtain ⟨w, hw, hle⟩ := ih
    refine ⟨(c :: v) ++ w, append_mem_languageFrom_iff.2 ⟨s, hcycle, hw⟩, ?_⟩
    rw [List.length_append, List.length_cons]
    omega

end Cycle

section Longest

def IsLongest (a : Automaton) (s : StateId) (n : Nat) : Prop :=
  IsGreatest {k | ∃ w ∈ a.languageFrom s, w.length = k} n

theorem isLongest_longestFrom {longest : Array Nat} (hs : s < a.numStates)
    (hlive : ∃ w, w ∈ a.languageFrom s)
    (h : ∀ d ∈ a.liveSuccessors a.liveStates s, a.IsLongest d (longest.getD d 0)) :
    a.IsLongest s (a.longestFrom a.liveStates longest s) := by
  have hcons : ∀ c w, c :: w ∈ a.languageFrom s → ∃ d ∈ a.liveSuccessors a.liveStates s,
      w.length ≤ longest.getD d 0 := by
    intro c w hw
    obtain ⟨d, hd, hw⟩ := cons_mem_languageFrom_iff.1 hw
    have hmem := (mem_liveSuccessors_iff_exists_step hs).2 ⟨c, hd, w, hw⟩
    exact ⟨d, hmem, (h d hmem).2 ⟨w, hw, rfl⟩⟩
  unfold longestFrom
  cases hmax : ((a.liveSuccessors a.liveStates s).map fun d => longest.getD d 0 + 1).max? with
  | none =>
    rw [List.max?_eq_none_iff, List.map_eq_nil_iff] at hmax
    -- no live state comes next, so the empty word is the only one
    have hnil : ∀ w ∈ a.languageFrom s, w = [] := by
      intro w hw
      cases w with
      | nil => rfl
      | cons c w =>
        obtain ⟨d, hd, _⟩ := hcons c w hw
        rw [hmax] at hd
        contradiction
    obtain ⟨w, hw⟩ := hlive
    refine ⟨⟨w, hw, congrArg List.length (hnil w hw)⟩, ?_⟩
    rintro k ⟨w, hw, rfl⟩
    exact Nat.le_of_eq (congrArg List.length (hnil w hw))
  | some n =>
    obtain ⟨hmem, hle⟩ := List.max?_eq_some_iff.1 hmax
    obtain ⟨d, hd, rfl⟩ := List.mem_map.1 hmem
    constructor
    · obtain ⟨c, hc, _⟩ := (mem_liveSuccessors_iff_exists_step hs).1 hd
      obtain ⟨w, hw, hlength⟩ := (h d hd).1
      exact ⟨c :: w, cons_mem_languageFrom_iff.2 ⟨d, hc, hw⟩, congrArg Nat.succ hlength⟩
    · rintro k ⟨w, hw, rfl⟩
      cases w with
      | nil => exact Nat.zero_le _
      | cons c w =>
        obtain ⟨d', hd', hlength⟩ := hcons c w hw
        exact Nat.le_trans (Nat.succ_le_succ hlength) (hle _ (List.mem_map_of_mem hd'))

theorem size_longestPaths (a : Automaton) (live : Array Bool) (order : Array StateId) :
    (a.longestPaths live order).size = a.numStates := by
  unfold longestPaths
  apply Array.foldl_induction (motive := fun _ (longest : Array Nat) => longest.size = a.numStates)
  · exact Array.size_replicate
  · intro i longest h
    rw [Array.size_setIfInBounds, h]

theorem getD_longestPaths_push {live : Array Bool} (hs : s < a.numStates) (d : StateId) :
    (a.longestPaths live (order.push s)).getD d 0 =
      if s = d then a.longestFrom live (a.longestPaths live order) s
      else (a.longestPaths live order).getD d 0 := by
  have hpush : a.longestPaths live (order.push s) = (a.longestPaths live order).setIfInBounds s
      (a.longestFrom live (a.longestPaths live order) s) := Array.foldl_push ..
  rw [hpush, getD_setIfInBounds, size_longestPaths]
  simp only [hs, and_true]

theorem longestFrom_le {live : Array Bool} {longest : Array Nat} {n : Nat}
    (h : ∀ d ∈ a.liveSuccessors live s, longest.getD d 0 < n) : a.longestFrom live longest s ≤ n := by
  unfold longestFrom
  cases hmax : ((a.liveSuccessors live s).map fun d => longest.getD d 0 + 1).max? with
  | none => exact Nat.zero_le n
  | some m =>
    obtain ⟨d, hd, rfl⟩ := List.mem_map.1 (List.max?_mem hmax)
    exact h d hd

end Longest

section Order

theorem Postorder.isLongest (h : a.Postorder a.liveStates order)
    (hinitial : a.liveStates.getD initial false = true) (hs : s ∈ order) :
    a.IsLongest s ((a.longestPaths a.liveStates order).getD s 0) := by
  induction h generalizing s with
  | empty => exact absurd hs (Array.not_mem_empty s)
  | @push order x h hnew hpath hnext ih =>
    have hx := hpath.lt_numStates a.size_pos
    rw [getD_longestPaths_push hx]
    split
    next heq =>
      subst heq
      apply isLongest_longestFrom hx ((liveStates_iff hx).1 (hpath.live hinitial))
      intro d hd
      exact ih (hnext d hd)
    next hne => exact ih ((Array.mem_push.1 hs).resolve_right (Ne.symm hne))

theorem Postorder.longest_lt {live : Array Bool} (h : a.Postorder live order) (hs : s ∈ order) :
    (a.longestPaths live order).getD s 0 < order.size := by
  induction h generalizing s with
  | empty => exact absurd hs (Array.not_mem_empty s)
  | @push order x h hnew hpath hnext ih =>
    rw [getD_longestPaths_push (hpath.lt_numStates a.size_pos), Array.size_push]
    split
    · exact Nat.lt_succ_of_le (longestFrom_le fun d hd => ih (hnext d hd))
    next hne =>
      exact Nat.lt_succ_of_lt (ih ((Array.mem_push.1 hs).resolve_right (Ne.symm hne)))

end Order

end Automaton

def LengthBound.Bounds : LengthBound → Language Char → Prop
  | .empty, L => ∀ w, w ∉ L
  | .bounded m, L => IsGreatest {k | ∃ w ∈ L, w.length = k} m
  | .unbounded, L => ∀ k, ∃ w ∈ L, k ≤ w.length

namespace LengthBound.Bounds

variable {b : LengthBound} {L : Language Char}

theorem eq_empty_iff (h : b.Bounds L) : b = .empty ↔ ∀ w, w ∉ L := by
  constructor
  · rintro rfl
    exact h
  · intro hL
    cases b with
    | empty => rfl
    | bounded m =>
      obtain ⟨w, hw, _⟩ := h.1
      exact absurd hw (hL w)
    | unbounded =>
      obtain ⟨w, hw, _⟩ := h 0
      exact absurd hw (hL w)

theorem ne_unbounded_iff (h : b.Bounds L) : b ≠ .unbounded ↔ ∃ n, ∀ w ∈ L, w.length < n := by
  cases b with
  | empty => exact iff_of_true nofun ⟨0, fun w hw => absurd hw (h w)⟩
  | bounded m => exact iff_of_true nofun ⟨m + 1, fun w hw => Nat.lt_succ_of_le (h.2 ⟨w, hw, rfl⟩)⟩
  | unbounded =>
    refine iff_of_false (fun hne => hne rfl) ?_
    rintro ⟨n, hn⟩
    obtain ⟨w, hw, hle⟩ := h n
    exact Nat.not_lt_of_le hle (hn w hw)

theorem eq_bounded_iff (h : b.Bounds L) {m : Nat} :
    b = .bounded m ↔ IsGreatest {k | ∃ w ∈ L, w.length = k} m := by
  constructor
  · rintro rfl
    exact h
  · intro hm
    cases b with
    | empty =>
      obtain ⟨w, hw, _⟩ := hm.1
      exact absurd hw (h w)
    | bounded m' => rw [IsGreatest.unique h hm]
    | unbounded =>
      obtain ⟨w, hw, hlt⟩ := h (m + 1)
      exact absurd (hm.2 ⟨w, hw, rfl⟩) (Nat.not_le_of_lt hlt)

theorem length_ne (h : b.Bounds L) {k : Nat} (hk : b.excludes k = true) :
    ∀ w ∈ L, w.length ≠ k := by
  intro w hw
  cases b with
  | empty => exact absurd hw (h w)
  | bounded m =>
    have hm : m < k := of_decide_eq_true hk
    exact Nat.ne_of_lt (Nat.lt_of_le_of_lt (h.2 ⟨w, hw, rfl⟩) hm)
  | unbounded => contradiction

end LengthBound.Bounds

namespace Automaton

variable {a : Automaton}

theorem bounds_lengthBound (a : Automaton) : a.lengthBound.Bounds a.language := by
  have hlive := liveStates_iff a.size_pos
  unfold lengthBound
  dsimp only
  split
  next hinitial =>
    split
    next horder =>
      obtain ⟨s, hpath, hcycle⟩ := exists_onCycle_of_livePostorder hinitial horder
      obtain ⟨u, hu⟩ := hpath.exists_run a.size_pos
      have hs := hpath.lt_numStates a.size_pos
      intro k
      obtain ⟨w, hw, hle⟩ := hcycle.exists_le_length hs
        ((liveStates_iff hs).1 (hpath.live hinitial)) k
      refine ⟨u ++ w, append_mem_languageFrom_iff.2 ⟨s, hu, hw⟩, ?_⟩
      rw [List.length_append]
      omega
    next order horder =>
      obtain ⟨hpostorder, hmem⟩ := postorder_of_livePostorder hinitial horder
      exact hpostorder.isLongest hinitial hmem
  next hdead =>
    rw [hlive] at hdead
    exact fun w hw => hdead ⟨w, hw⟩

theorem lt_numStates_of_lengthBound {m : Nat} (h : a.lengthBound = .bounded m) :
    m < a.numStates := by
  unfold lengthBound at h
  dsimp only at h
  split at h
  next hinitial =>
    split at h
    · contradiction
    next order horder =>
      cases h
      obtain ⟨hpostorder, hmem⟩ := postorder_of_livePostorder hinitial horder
      -- the order is made of distinct states
      apply Nat.lt_of_lt_of_le (hpostorder.longest_lt hmem)
      apply Region.length_le_of_forall_lt hpostorder.nodup
      intro s hs
      exact (hpostorder.livePath (Array.mem_def.2 hs)).lt_numStates a.size_pos
  · contradiction

theorem isFinite_iff_ne_unbounded : a.isFinite = true ↔ a.lengthBound ≠ .unbounded := by
  unfold isFinite lengthBound
  dsimp only
  split
  · split
    next horder => simp [horder]
    next order horder => simp [horder]
  next hdead => simp [livePostorder, hdead]

theorem isFinite_iff : a.isFinite = true ↔ {w | w ∈ a.language}.Finite := by
  rw [isFinite_iff_ne_unbounded, a.bounds_lengthBound.ne_unbounded_iff]
  constructor
  · rintro ⟨n, hn⟩
    apply (finite_length_lt a.size_pos n).subset
    intro w hw
    exact ⟨hn w hw, hw⟩
  · intro hfinite
    obtain ⟨m, hm⟩ := (hfinite.image List.length).bddAbove
    exact ⟨m + 1, fun w hw => Nat.lt_succ_of_le (hm ⟨w, hw, rfl⟩)⟩

/--
The bound is empty if and only if no word is accepted, a number if and only if finitely many words
are accepted and the longest has that length, and unbounded if and only if infinitely many words are
accepted. A number stays below the number of states, unreachable and dead ones included.
-/
theorem lengthBound_exact (a : Automaton) :
    let accepted : Set (List Char) := {w | a.accepts w = .ok true}
    (a.lengthBound = .empty ↔ accepted = ∅) ∧
    (∀ m, a.lengthBound = .bounded m ↔
      accepted.Nonempty ∧ accepted.Finite ∧ IsGreatest (List.length '' accepted) m) ∧
    (∀ m, a.lengthBound = .bounded m → m < a.numStates) ∧
    (a.lengthBound = .unbounded ↔ accepted.Infinite) ∧
    (a.isFinite = true ↔ accepted.Finite) ∧
    (a.isFinite = true ↔ a.lengthBound ≠ .unbounded) := by
  intro accepted
  have haccepted : accepted = {w | w ∈ a.language} := Set.ext fun _ => accepts_eq_ok_true_iff
  have hfinite : a.isFinite = true ↔ accepted.Finite := by
    rw [haccepted]
    exact isFinite_iff
  have hbounds := a.bounds_lengthBound
  refine ⟨?_, ?_, fun m => lt_numStates_of_lengthBound, ?_, hfinite, isFinite_iff_ne_unbounded⟩
  · rw [hbounds.eq_empty_iff, haccepted, Set.eq_empty_iff_forall_notMem]
    rfl
  · intro m
    have hgreatest : a.lengthBound = .bounded m ↔ IsGreatest (List.length '' accepted) m := by
      rw [hbounds.eq_bounded_iff, haccepted]
      rfl
    constructor
    · intro hm
      have hne : a.lengthBound ≠ .unbounded := by
        rw [hm]
        nofun
      refine ⟨?_, hfinite.1 (isFinite_iff_ne_unbounded.2 hne), hgreatest.1 hm⟩
      exact Set.image_nonempty.1 ⟨m, (hgreatest.1 hm).1⟩
    · rintro ⟨_, _, hm⟩
      exact hgreatest.2 hm
  · rw [Set.Infinite, ← hfinite, isFinite_iff_ne_unbounded, not_not]

end Automaton

end Residual
