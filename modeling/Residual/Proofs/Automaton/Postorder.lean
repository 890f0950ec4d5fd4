import Residual.Automaton.Postorder
import Residual.Proofs.Automaton.Reachability

/-!
This module contains the correctness of the depth-first search: the order that it finds is a
post-order, and if it finds none there is a cycle.
-/

namespace Residual

namespace Automaton

variable {a : Automaton} {live : Array Bool} {s d x : StateId} {k : Nat} {order : Array StateId}

section Graph

def LivePath (a : Automaton) (live : Array Bool) : StateId → StateId → Prop :=
  Relation.ReflTransGen fun s d => d ∈ a.liveSuccessors live s

def OnCycle (a : Automaton) (live : Array Bool) (s : StateId) : Prop :=
  Relation.TransGen (fun s d => d ∈ a.liveSuccessors live s) s s

theorem mem_liveSuccessors_iff :
    d ∈ a.liveSuccessors live s ↔ d ∈ a.successors s ∧ live.getD d false = true :=
  List.mem_filter

theorem mem_successors_of_successor? (h : a.successor? s k = some d) : d ∈ a.successors s := by
  rw [successor?_eq_getElem?] at h
  exact List.mem_of_getElem? h

theorem mem_liveSuccessors_of_successor? (hd : a.successor? s k = some d)
    (hlive : live.getD d false = true) : d ∈ a.liveSuccessors live s :=
  mem_liveSuccessors_iff.2 ⟨mem_successors_of_successor? hd, hlive⟩

end Graph

/--
The orders of states that live paths from the initial one lead to in which each state comes after its
live successors.
-/
inductive Postorder (a : Automaton) (live : Array Bool) : Array StateId → Prop where
  | empty : Postorder a live #[]
  | push {order : Array StateId} {s : StateId} (h : Postorder a live order) (hnew : s ∉ order)
      (hpath : a.LivePath live initial s) (hnext : ∀ d ∈ a.liveSuccessors live s, d ∈ order) :
    Postorder a live (order.push s)

namespace Postorder

theorem nodup (h : a.Postorder live order) : order.toList.Nodup := by
  induction h with
  | empty => exact List.nodup_nil
  | push _ hnew _ _ ih =>
    rw [Array.toList_push, List.nodup_append_comm, List.singleton_append, List.nodup_cons]
    exact ⟨fun hmem => hnew (Array.mem_def.2 hmem), ih⟩

theorem livePath (h : a.Postorder live order) (hs : s ∈ order) : a.LivePath live initial s := by
  induction h with
  | empty => exact absurd hs (Array.not_mem_empty _)
  | push _ _ hpath _ ih =>
    rcases Array.mem_push.1 hs with hs | rfl
    · exact ih hs
    · exact hpath

theorem exists_lt (h : a.Postorder live order) {i : Nat} (hi : order[i]? = some s)
    (hd : d ∈ a.liveSuccessors live s) : ∃ j < i, order[j]? = some d := by
  induction h with
  | empty => contradiction
  | @push order s' h _ _ hnext ih =>
    have hlast : ∀ {j}, j < order.size → (order.push s')[j]? = order[j]? := by
      intro j hj
      rw [Array.getElem?_push, if_neg (Nat.ne_of_lt hj)]
    rw [Array.getElem?_push] at hi
    split at hi
    next heq =>
      cases hi
      obtain ⟨j, hj⟩ := Array.mem_iff_getElem?.1 (hnext d hd)
      have hlt := (Array.getElem?_eq_some_iff.1 hj).1
      exact ⟨j, heq ▸ hlt, (hlast hlt).trans hj⟩
    · obtain ⟨j, hj, hget⟩ := ih hi
      have hlt := (Array.getElem?_eq_some_iff.1 hget).1
      exact ⟨j, hj, (hlast hlt).trans hget⟩

theorem mem_of_mem_liveSuccessors (h : a.Postorder live order) (hs : s ∈ order)
    (hd : d ∈ a.liveSuccessors live s) : d ∈ order := by
  obtain ⟨i, hi⟩ := Array.mem_iff_getElem?.1 hs
  obtain ⟨j, _, hj⟩ := h.exists_lt hi hd
  exact Array.mem_of_getElem? hj

theorem mem_of_livePath (h : a.Postorder live order) (hs : s ∈ order)
    (hpath : a.LivePath live s d) : d ∈ order := by
  induction hpath with
  | refl => exact hs
  | tail _ hd ih => exact h.mem_of_mem_liveSuccessors ih hd

theorem not_onCycle (h : a.Postorder live order) (hs : s ∈ order) : ¬a.OnCycle live s := by
  induction h with
  | empty => exact absurd hs (Array.not_mem_empty _)
  | push h hnew _ hnext ih =>
    rcases Array.mem_push.1 hs with hs | rfl
    · exact ih hs
    · -- a path that leaves `s` stays among the states before it
      intro hcycle
      obtain ⟨d, hd, hpath⟩ := Relation.TransGen.head'_iff.1 hcycle
      exact hnew (h.mem_of_livePath (hnext d hd) hpath)

end Postorder

section Path

def Finished (a : Automaton) (live : Array Bool) (order : Array StateId) (s : StateId) (k : Nat) :
    Prop :=
  ∀ i < k, ∀ d, a.successor? s i = some d → live.getD d false = true → d ∈ order

/--
The path of a search below a state `d`. The state at its end waits for `d` and has finished the live
successors before it.
-/
inductive Below (a : Automaton) (live : Array Bool) (order : Array StateId) :
    StateId → List Branch → Prop where
  | root : Below a live order initial []
  | branch {s d : StateId} {k : Nat} {path : List Branch} (h : Below a live order s path)
      (hd : a.successor? s k = some d) (hlive : live.getD d false = true)
      (hfinished : a.Finished live order s k) : Below a live order d (⟨s, k + 1⟩ :: path)

variable {path : List Branch} {order' : Array StateId}

theorem Finished.mono (h : a.Finished live order s k) (hle : ∀ x ∈ order, x ∈ order') :
    a.Finished live order' s k :=
  fun i hi d hd hlive => hle d (h i hi d hd hlive)

theorem Finished.succ (h : a.Finished live order s k)
    (hlast : ∀ d, a.successor? s k = some d → live.getD d false = true → d ∈ order) :
    a.Finished live order s (k + 1) := by
  intro i hi d hd hlive
  rcases Nat.lt_succ_iff_lt_or_eq.1 hi with hi | rfl
  · exact h i hi d hd hlive
  · exact hlast d hd hlive

theorem Finished.mem (h : a.Finished live order s k) (hend : a.successor? s k = none) :
    ∀ d ∈ a.liveSuccessors live s, d ∈ order := by
  intro d hd
  obtain ⟨hmem, hlive⟩ := mem_liveSuccessors_iff.1 hd
  obtain ⟨i, hi⟩ := List.mem_iff_getElem?.1 hmem
  rw [successor?_eq_getElem?, List.getElem?_eq_none_iff] at hend
  have hlt := (List.getElem?_eq_some_iff.1 hi).1
  exact h i (Nat.lt_of_lt_of_le hlt hend) d (successor?_eq_getElem? .. ▸ hi) hlive

theorem Below.mono (h : a.Below live order s path) (hle : ∀ x ∈ order, x ∈ order') :
    a.Below live order' s path := by
  induction h with
  | root => exact .root
  | branch _ hd hlive hfinished ih => exact .branch ih hd hlive (hfinished.mono hle)

theorem Below.livePath_initial (h : a.Below live order s path) : a.LivePath live initial s := by
  induction h with
  | root => exact .refl
  | branch _ hd hlive _ ih => exact ih.tail (mem_liveSuccessors_of_successor? hd hlive)

theorem Below.livePath (h : a.Below live order s path) (hx : x ∈ path.map Branch.state) :
    a.LivePath live x s := by
  induction h with
  | root => contradiction
  | branch _ hd hlive _ ih =>
    have hnext := mem_liveSuccessors_of_successor? hd hlive
    rcases List.mem_cons.1 hx with rfl | hx
    · exact .single hnext
    · exact (ih hx).tail hnext

def Route (a : Automaton) (live : Array Bool) (order : Array StateId) : List Branch → Prop
  | [] => initial ∈ order
  | f :: path => a.Below live order f.state path ∧ a.Finished live order f.state f.next

theorem Below.route_push (h : a.Below live order s path) :
    a.Route live (order.push s) path := by
  cases h with
  | root => exact Array.mem_push_self
  | branch h hd hlive hfinished =>
    have hle : ∀ x ∈ order, x ∈ order.push s := fun x => Array.mem_push_of_mem s
    refine ⟨h.mono hle, (hfinished.mono hle).succ ?_⟩
    intro d' hd' _
    rw [hd] at hd'
    exact Option.some.inj hd' ▸ Array.mem_push_self

end Path

section Search

structure Colored (a : Automaton) (t : DepthFirst) : Prop where
  size_eq : t.colors.size = a.numStates
  gray_iff : ∀ s, t.color s = .gray ↔ s ∈ t.path.map Branch.state
  black_iff : ∀ s < a.numStates, t.color s = .black ↔ s ∈ t.order
  nodup : (t.path.map Branch.state).Nodup

variable {t t' : DepthFirst} {f : Branch} {path : List Branch}

theorem lt_of_color_ne_black (h : t.color s ≠ .black) : s < t.colors.size := by
  by_contra hle
  rw [DepthFirst.color, Array.getD, dif_neg hle] at h
  exact h rfl

theorem color_replicate (n : Nat) (path : List Branch) (order : Array StateId) (s : StateId) :
    DepthFirst.color ⟨Array.replicate n .white, path, order⟩ s = if s < n then .white else .black := by
  rw [DepthFirst.color, Array.getD_eq_getD_getElem?, Array.getElem?_replicate]
  split <;> rfl

namespace Colored

theorem of_replicate (a : Automaton) : a.Colored ⟨Array.replicate a.numStates .white, [], #[]⟩ where
  size_eq := Array.size_replicate
  gray_iff s := by
    rw [color_replicate]
    refine iff_of_false ?_ List.not_mem_nil
    split <;> nofun
  black_iff s hs := by
    rw [color_replicate, if_pos hs]
    exact iff_of_false nofun (Array.not_mem_empty s)
  nodup := List.nodup_nil

theorem gray_of_path (h : a.Colored t) (hpath : t.path = f :: path) : t.color f.state = .gray := by
  rw [h.gray_iff, hpath]
  exact List.mem_cons_self

theorem lt_of_path (h : a.Colored t) (hpath : t.path = f :: path) : f.state < t.colors.size := by
  apply lt_of_color_ne_black
  rw [h.gray_of_path hpath]
  nofun

theorem enter (h : a.Colored t) (hwhite : t.color d = .white) : a.Colored (t.enter d) := by
  have hd : d < t.colors.size := lt_of_color_ne_black (by rw [hwhite]; nofun)
  have hcolor : ∀ s, (t.enter d).color s = if d = s ∧ d < t.colors.size then .gray else t.color s :=
    fun s => getD_setIfInBounds ..
  simp only [hd, and_true] at hcolor
  constructor
  · exact Array.size_setIfInBounds.trans h.size_eq
  · intro s
    show _ ↔ s ∈ d :: t.path.map Branch.state
    rw [hcolor, List.mem_cons, ← h.gray_iff]
    split
    next heq => simp [heq]
    next hne => exact (or_iff_right (Ne.symm hne)).symm
  · intro s hs
    show _ ↔ s ∈ t.order
    rw [hcolor, ← h.black_iff s hs]
    split
    next heq =>
      subst heq
      simp [hwhite]
    · rfl
  · refine List.nodup_cons.2 ⟨?_, h.nodup⟩
    rw [← h.gray_iff, hwhite]
    nofun

theorem leave (h : a.Colored t) (hpath : t.path = f :: path) :
    a.Colored (t.leave f.state path) := by
  have hgray := h.gray_iff
  have hnodup := h.nodup
  rw [hpath, List.map_cons] at hgray hnodup
  obtain ⟨hnew, hnodup⟩ := List.nodup_cons.1 hnodup
  have hlt := h.lt_of_path hpath
  have hcolor : ∀ s, (t.leave f.state path).color s =
      if f.state = s ∧ f.state < t.colors.size then .black else t.color s :=
    fun s => getD_setIfInBounds ..
  simp only [hlt, and_true] at hcolor
  constructor
  · exact Array.size_setIfInBounds.trans h.size_eq
  · intro s
    show _ ↔ s ∈ path.map Branch.state
    rw [hcolor]
    split
    next heq => exact iff_of_false nofun (heq ▸ hnew)
    next hne => exact (hgray s).trans (List.mem_cons.trans (or_iff_right (Ne.symm hne)))
  · intro s hs
    show _ ↔ s ∈ t.order.push f.state
    rw [hcolor, Array.mem_push, ← h.black_iff s hs]
    split
    next heq => exact iff_of_true rfl (.inr heq.symm)
    next hne => exact (or_iff_left (Ne.symm hne)).symm
  · exact hnodup

theorem advance (h : a.Colored t) (hpath : t.path = f :: path) : a.Colored (t.advance f path) := by
  have hstates : (t.advance f path).path.map Branch.state = t.path.map Branch.state := by
    rw [hpath]
    rfl
  exact ⟨h.size_eq, hstates ▸ h.gray_iff, h.black_iff, hstates ▸ h.nodup⟩

end Colored

structure Searching (a : Automaton) (live : Array Bool) (t : DepthFirst) : Prop extends
    a.Colored t where
  postorder : a.Postorder live t.order
  route : a.Route live t.order t.path

theorem searching_start (a : Automaton) (live : Array Bool) :
    a.Searching live (.start a.numStates initial) where
  toColored := by
    apply (Colored.of_replicate a).enter
    rw [color_replicate]
    exact if_pos a.size_pos
  postorder := .empty
  route := ⟨.root, nofun⟩

theorem Searching.turn (h : a.Searching live t) (hpath : t.path = f :: path)
    (hturn : a.turn live t f path = some t') : a.Searching live t' := by
  have hturns := a.turns_turn live t f path
  have hroute := h.route
  rw [hturn] at hturns
  rw [hpath] at hroute
  obtain ⟨hbelow, hfinished⟩ := hroute
  cases hturns with
  | leave hend =>
    -- a gray state is not in the order yet
    have hnew : f.state ∉ t.order := by
      rw [← h.black_iff f.state (h.size_eq ▸ h.lt_of_path hpath), h.gray_of_path hpath]
      nofun
    exact ⟨h.leave hpath, h.postorder.push hnew hbelow.livePath_initial (hfinished.mem hend),
      hbelow.route_push⟩
  | @pass d hd hblack =>
    refine ⟨h.advance hpath, h.postorder, hbelow, hfinished.succ ?_⟩
    intro d' hd' hlive
    cases Option.some.inj (hd.symm.trans hd')
    have hlt := successors_lt (mem_successors_of_successor? hd)
    exact (h.black_iff d hlt).1 (hblack hlive)
  | enter hd hlive hwhite =>
    exact ⟨(h.advance hpath).enter hwhite, h.postorder, .branch hbelow hd hlive hfinished, nofun⟩

theorem Searching.exists_onCycle (h : a.Searching live t) (hpath : t.path = f :: path)
    (hturn : a.turn live t f path = none) :
    ∃ s, a.LivePath live initial s ∧ a.OnCycle live s := by
  have hturns := a.turns_turn live t f path
  have hroute := h.route
  rw [hturn] at hturns
  rw [hpath] at hroute
  obtain ⟨hbelow, _⟩ := hroute
  cases hturns with
  | @close d hd hlive hgray =>
    have hnext := mem_liveSuccessors_of_successor? hd hlive
    refine ⟨d, hbelow.livePath_initial.tail hnext, ?_⟩
    -- a gray successor is on the path, so it leads to the state that it follows
    rw [h.gray_iff, hpath] at hgray
    rcases List.mem_cons.1 hgray with heq | hmem
    · rw [← heq] at hnext
      exact .single hnext
    · exact .tail' (hbelow.livePath hmem) hnext

theorem Searching.ends (h : a.Searching live t) :
    match a.depthFirst live t with
    | some order => a.Postorder live order ∧ initial ∈ order
    | none => ∃ s, a.LivePath live initial s ∧ a.OnCycle live s := by
  fun_induction depthFirst a live t with
  | case1 t hpath =>
    have hroute := h.route
    rw [hpath] at hroute
    exact ⟨h.postorder, hroute⟩
  | case2 t f path hpath hturn => exact h.exists_onCycle hpath hturn
  | case3 t f path hpath t' hturn ih => exact ih (h.turn hpath hturn)

end Search

variable (hinitial : live.getD initial false = true)

include hinitial

theorem postorder_of_livePostorder (h : a.livePostorder live = some order) :
    a.Postorder live order ∧ initial ∈ order := by
  have hends := (searching_start a live).ends
  rw [livePostorder, if_pos hinitial] at h
  rwa [h] at hends

theorem exists_onCycle_of_livePostorder (h : a.livePostorder live = none) :
    ∃ s, a.LivePath live initial s ∧ a.OnCycle live s := by
  have hends := (searching_start a live).ends
  rw [livePostorder, if_pos hinitial] at h
  rwa [h] at hends

/--
If there is an order, it lists the states that live paths from the initial one lead to, each one once
and after its live successors. There is none if and only if one of these states is on a cycle.
-/
theorem livePostorder_exact :
    (∀ order, a.livePostorder live = some order →
      order.toList.Nodup ∧ (∀ s, s ∈ order ↔ a.LivePath live initial s) ∧
      ∀ (i : Nat) s d, order[i]? = some s → d ∈ a.liveSuccessors live s →
        ∃ j < i, order[j]? = some d) ∧
    (a.livePostorder live = none ↔ ∃ s, a.LivePath live initial s ∧ a.OnCycle live s) := by
  refine ⟨fun order horder => ?_, exists_onCycle_of_livePostorder hinitial, ?_⟩
  · obtain ⟨h, hmem⟩ := postorder_of_livePostorder hinitial horder
    refine ⟨h.nodup, fun s => ⟨h.livePath, h.mem_of_livePath hmem⟩, ?_⟩
    intro i s d hi hd
    exact h.exists_lt hi hd
  · rintro ⟨s, hpath, hcycle⟩
    rw [Option.eq_none_iff_forall_ne_some]
    intro order horder
    obtain ⟨h, hmem⟩ := postorder_of_livePostorder hinitial horder
    exact h.not_onCycle (h.mem_of_livePath hmem hpath) hcycle

end Automaton

end Residual
