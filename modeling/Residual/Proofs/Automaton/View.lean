import Mathlib.Data.List.Pairwise
import Residual.Automaton.View
import Residual.Proofs.Automaton.Reachability
import Residual.Proofs.Symbol.Range

/-!
This module contains what the pictures of an automaton show: every transition between two of their
states once, and in the picture of the states that matter the words that the automaton accepts.
-/

namespace Residual

inductive View.Walk (v : View) : StateId → List Char → StateId → Prop where
  | nil (s : StateId) : v.Walk s [] s
  | cons {e : ViewEdge} {c : Char} {w : List Char} {d : StateId} (mem : e ∈ v.edges)
    (label : e.contains c = true) (rest : v.Walk e.target w d) : v.Walk e.source (c :: w) d

def View.Spells (v : View) (w : List Char) : Prop :=
  ∃ i ∈ v.nodes, i.initial = true ∧ ∃ f ∈ v.nodes, f.accepting = true ∧ v.Walk i.state w f.state

def View.LeadsThrough (v : View) (s : StateId) : Prop :=
  ∃ i ∈ v.nodes, i.initial = true ∧ ∃ f ∈ v.nodes, f.accepting = true ∧
    ∃ u w, v.Walk i.state u s ∧ v.Walk s w f.state

namespace View

variable {v : View} {n : ViewNode} {s : StateId}

theorem of_node? (h : v.node? s = some n) : n ∈ v.nodes ∧ n.state = s := by
  unfold node? at h
  have hstate := List.find?_some h
  exact ⟨List.mem_of_find?_eq_some h, of_decide_eq_true hstate⟩

theorem exists_node? (h : n ∈ v.nodes) : ∃ m, v.node? n.state = some m := by
  rw [← Option.isSome_iff_exists, node?, List.find?_isSome]
  exact ⟨n, h, decide_eq_true rfl⟩

end View

namespace Automaton

def viewNode (a : Automaton) (s : StateId) : ViewNode :=
  ⟨s, a.accepting s, s = initial, (a.state? s).bind State.term⟩

/-- What a picture says about the automaton if it shows the states that satisfy `kept`. -/
structure Depicts (a : Automaton) (kept : StateId → Prop) (v : View) : Prop where
  nodes_increasing : v.nodes.Pairwise fun n m => n.state < m.state
  edges_increasing : v.edges.Pairwise fun e f =>
    e.source < f.source ∨ e.source = f.source ∧ e.target < f.target
  mem_nodes_iff : ∀ n, n ∈ v.nodes ↔ kept n.state ∧ n = a.viewNode n.state
  node?_eq_some_iff : ∀ s n, v.node? s = some n ↔ kept s ∧ n = a.viewNode s
  ends_kept : ∀ e ∈ v.edges, kept e.source ∧ kept e.target
  labelled : ∀ e ∈ v.edges, e.symbols ≠ [] ∧ ∃ c, e.contains c = true
  edge_iff : ∀ s d c, kept s → kept d →
    ((∃ e ∈ v.edges, e.source = s ∧ e.target = d ∧ e.contains c = true) ↔
      ∃ k, a.alphabet.symbol? k = some c ∧ a.successor? s k = some d)
  edge_unique : ∀ e ∈ v.edges, ∀ f ∈ v.edges, e.source = f.source → e.target = f.target → e = f
  outEdges_sublist : ∀ s, (v.outEdges s).Sublist v.edges
  mem_outEdges_iff : ∀ s e, e ∈ v.outEdges s ↔ e ∈ v.edges ∧ e.source = s

def Matters (a : Automaton) (s : StateId) : Prop :=
  s = initial ∨ (∃ w, a.run initial w = .ok s) ∧ ∃ w, w ∈ a.languageFrom s

variable {a : Automaton} {keep : StateId → Bool} {kept : StateId → Prop} {s d : StateId}
  {e f : ViewEdge} {c : Char} {u w : List Char}

section Edges

theorem increasing_lt (l : List StateId) : (increasing l).Pairwise (· < ·) := by
  apply (increasing_increasing l).imp
  intro s d h
  exact Nat.compare_eq_lt.1 h

theorem mem_viewEdges_iff : e ∈ a.viewEdges keep s ↔ e.source = s ∧
    (∃ c, (c, e.target) ∈ a.edges s) ∧ keep e.target = true ∧
    e.symbols = SymbolRange.compact
      ((((a.edges s).filter fun e => keep e.2).filter fun x => x.2 = e.target).map Prod.fst) := by
  simp only [viewEdges, List.mem_map, mem_increasing, List.mem_filter]
  constructor
  · rintro ⟨d, ⟨⟨c, d'⟩, ⟨hmem, hkeep⟩, rfl⟩, rfl⟩
    exact ⟨rfl, ⟨c, hmem⟩, hkeep, rfl⟩
  · rintro ⟨rfl, ⟨c, hmem⟩, hkeep, hsymbols⟩
    refine ⟨e.target, ⟨⟨c, e.target⟩, ⟨hmem, hkeep⟩, rfl⟩, ?_⟩
    rw [← hsymbols]

theorem source_of_mem_viewEdges (h : e ∈ a.viewEdges keep s) : e.source = s :=
  (mem_viewEdges_iff.1 h).1

theorem contains_iff_of_mem_viewEdges (hs : s < a.numStates) (h : e ∈ a.viewEdges keep s) :
    e.contains c = true ↔ a.step s c = .ok e.target := by
  obtain ⟨_, _, hkeep, hsymbols⟩ := mem_viewEdges_iff.1 h
  rw [ViewEdge.contains, hsymbols, SymbolRange.any_contains_compact, ← mem_edges_iff hs]
  simp only [List.mem_map, List.mem_filter, decide_eq_true_eq]
  constructor
  · rintro ⟨⟨c', d⟩, ⟨⟨hmem, _⟩, rfl⟩, rfl⟩
    exact hmem
  · exact fun hmem => ⟨⟨c, e.target⟩, ⟨⟨hmem, hkeep⟩, rfl⟩, rfl⟩

theorem labelled_of_mem_viewEdges (hs : s < a.numStates) (h : e ∈ a.viewEdges keep s) :
    ∃ c, e.contains c = true := by
  obtain ⟨_, ⟨c, hmem⟩, _⟩ := mem_viewEdges_iff.1 h
  exact ⟨c, (contains_iff_of_mem_viewEdges hs h).2 ((mem_edges_iff hs).1 hmem)⟩

theorem exists_mem_viewEdges (hs : s < a.numStates) (hd : keep d = true)
    (h : a.step s c = .ok d) : ∃ e ∈ a.viewEdges keep s, e.target = d := by
  simp only [viewEdges, List.mem_map, mem_increasing, List.mem_filter]
  exact ⟨_, ⟨d, ⟨(c, d), ⟨(mem_edges_iff hs).2 h, hd⟩, rfl⟩, rfl⟩, rfl⟩

theorem pairwise_viewEdges (a : Automaton) (keep : StateId → Bool) (s : StateId) :
    (a.viewEdges keep s).Pairwise fun e f => e.target < f.target := by
  unfold viewEdges
  exact List.pairwise_map.2 (increasing_lt _)

theorem eq_of_mem_viewEdges (he : e ∈ a.viewEdges keep s) (hf : f ∈ a.viewEdges keep s)
    (h : e.target = f.target) : e = f := by
  obtain ⟨rfl, _, _, hsymbols⟩ := mem_viewEdges_iff.1 he
  obtain ⟨hsource, _, _, hsymbols'⟩ := mem_viewEdges_iff.1 hf
  rw [← h, ← hsymbols] at hsymbols'
  cases e
  cases f
  simp_all

end Edges

section Pictures

theorem mem_viewStates_iff (h : ∀ s, kept s ↔ s < a.numStates ∧ keep s = true) :
    s ∈ (List.range a.numStates).filter keep ↔ kept s := by
  rw [h, List.mem_filter, List.mem_range]

theorem mem_edges_viewOf_iff (h : ∀ s, kept s ↔ s < a.numStates ∧ keep s = true) :
    e ∈ (a.viewOf keep).edges ↔ kept e.source ∧ e ∈ a.viewEdges keep e.source := by
  simp only [viewOf, List.mem_flatMap, mem_viewStates_iff h]
  constructor
  · rintro ⟨s, hs, he⟩
    rw [source_of_mem_viewEdges he]
    exact ⟨hs, he⟩
  · rintro ⟨hs, he⟩
    exact ⟨e.source, hs, he⟩

theorem mem_nodes_viewOf_iff (h : ∀ s, kept s ↔ s < a.numStates ∧ keep s = true) {n : ViewNode} :
    n ∈ (a.viewOf keep).nodes ↔ kept n.state ∧ n = a.viewNode n.state := by
  simp only [viewOf, List.mem_map, mem_viewStates_iff h]
  constructor
  · rintro ⟨s, hs, rfl⟩
    exact ⟨hs, rfl⟩
  · rintro ⟨hs, hn⟩
    exact ⟨n.state, hs, hn.symm⟩

theorem node?_viewOf_eq_some_iff (h : ∀ s, kept s ↔ s < a.numStates ∧ keep s = true)
    {n : ViewNode} : (a.viewOf keep).node? s = some n ↔ kept s ∧ n = a.viewNode s := by
  constructor
  · intro hn
    obtain ⟨hmem, rfl⟩ := View.of_node? hn
    exact (mem_nodes_viewOf_iff h).1 hmem
  · rintro ⟨hkept, rfl⟩
    have hmem : a.viewNode s ∈ (a.viewOf keep).nodes := (mem_nodes_viewOf_iff h).2 ⟨hkept, rfl⟩
    obtain ⟨m, hm⟩ : ∃ m, (a.viewOf keep).node? s = some m := View.exists_node? hmem
    obtain ⟨hmem', rfl⟩ := View.of_node? hm
    rw [hm, ← ((mem_nodes_viewOf_iff h).1 hmem').2]

theorem depicts_viewOf (h : ∀ s, kept s ↔ s < a.numStates ∧ keep s = true) :
    a.Depicts kept (a.viewOf keep) where
  nodes_increasing := by
    apply List.pairwise_map.2
    exact List.pairwise_lt_range.filter keep
  edges_increasing := by
    show (((List.range a.numStates).filter keep).flatMap (a.viewEdges keep)).Pairwise _
    rw [List.pairwise_flatMap]
    constructor
    · intro s _
      apply (a.pairwise_viewEdges keep s).imp_of_mem
      intro e f he hf hlt
      rw [source_of_mem_viewEdges he, source_of_mem_viewEdges hf]
      exact .inr ⟨rfl, hlt⟩
    · apply (List.pairwise_lt_range.filter keep).imp
      intro s d hlt e he f hf
      rw [source_of_mem_viewEdges he, source_of_mem_viewEdges hf]
      exact .inl hlt
  mem_nodes_iff _ := mem_nodes_viewOf_iff h
  node?_eq_some_iff _ _ := node?_viewOf_eq_some_iff h
  ends_kept := by
    intro e he
    obtain ⟨hsource, he⟩ := (mem_edges_viewOf_iff h).1 he
    obtain ⟨_, ⟨c, hmem⟩, hkeep, _⟩ := mem_viewEdges_iff.1 he
    have hstep := (mem_edges_iff ((h _).1 hsource).1).1 hmem
    exact ⟨hsource, (h _).2 ⟨lt_of_step hstep, hkeep⟩⟩
  labelled := by
    intro e he
    obtain ⟨hsource, he⟩ := (mem_edges_viewOf_iff h).1 he
    obtain ⟨c, hc⟩ := labelled_of_mem_viewEdges ((h _).1 hsource).1 he
    refine ⟨fun hnil => ?_, c, hc⟩
    rw [ViewEdge.contains, hnil] at hc
    contradiction
  edge_iff := by
    intro s d c hs hd
    have hlt := ((h s).1 hs).1
    rw [← step_eq_ok_iff_successor? hlt]
    constructor
    · rintro ⟨e, he, rfl, rfl, hc⟩
      exact (contains_iff_of_mem_viewEdges hlt ((mem_edges_viewOf_iff h).1 he).2).1 hc
    · intro hstep
      obtain ⟨e, he, rfl⟩ := exists_mem_viewEdges hlt ((h d).1 hd).2 hstep
      obtain rfl := source_of_mem_viewEdges he
      refine ⟨e, (mem_edges_viewOf_iff h).2 ⟨hs, he⟩, rfl, rfl, ?_⟩
      exact (contains_iff_of_mem_viewEdges hlt he).2 hstep
  edge_unique := by
    intro e he f hf hsource htarget
    have he := ((mem_edges_viewOf_iff h).1 he).2
    have hf := ((mem_edges_viewOf_iff h).1 hf).2
    rw [← hsource] at hf
    exact eq_of_mem_viewEdges he hf htarget
  outEdges_sublist _ := List.filter_sublist
  mem_outEdges_iff := by
    intro s e
    rw [View.outEdges, List.mem_filter, decide_eq_true_eq]

theorem depicts_fullView (a : Automaton) : a.Depicts (· < a.numStates) a.fullView :=
  depicts_viewOf fun _ => (and_iff_left rfl).symm

theorem Matters.lt_numStates (h : a.Matters s) : s < a.numStates := by
  rcases h with rfl | ⟨⟨w, hw⟩, _⟩
  · exact a.size_pos
  · exact lt_of_run a.size_pos hw

theorem depicts_liveView (a : Automaton) : a.Depicts a.Matters a.liveView := by
  apply depicts_viewOf
  intro s
  have hmatters : ∀ hs : s < a.numStates, (s = initial || (a.liveStates.getD s false &&
      a.reachableStates.getD s false)) = true ↔ a.Matters s := by
    intro hs
    rw [Bool.or_eq_true, decide_eq_true_eq, Bool.and_eq_true, liveStates_iff hs,
      reachableStates_iff hs, and_comm]
    rfl
  constructor
  · exact fun h => ⟨h.lt_numStates, (hmatters h.lt_numStates).2 h⟩
  · rintro ⟨hs, h⟩
    exact (hmatters hs).1 h

/--
The full picture of an automaton shows all of its states, the live one those that matter. Both show
each transition between two of their states once.
-/
theorem pictures_exact (a : Automaton) :
    a.Depicts (· < a.numStates) a.fullView ∧ a.Depicts a.Matters a.liveView :=
  ⟨a.depicts_fullView, a.depicts_liveView⟩

end Pictures

section Words

variable {v : View}

theorem Depicts.run_of_walk (h : a.Depicts kept v) (hw : v.Walk s w d) : a.run s w = .ok d := by
  induction hw with
  | nil _ => rfl
  | @cons e c w d hmem hlabel _ ih =>
    obtain ⟨hsource, htarget⟩ := h.ends_kept e hmem
    obtain ⟨k, hc, hk⟩ := (h.edge_iff _ _ c hsource htarget).1 ⟨e, hmem, rfl, rfl, hlabel⟩
    have hstep := (step_eq_ok_iff_successor? (lt_of_successor? hk).1).2 ⟨k, hc, hk⟩
    rw [run_cons_of_step hstep, ih]

theorem Depicts.exists_edge (h : a.Depicts a.Matters v) (hs : a.Matters s) (hd : a.Matters d)
    (hstep : a.step s c = .ok d) :
    ∃ e ∈ v.edges, e.source = s ∧ e.target = d ∧ e.contains c = true :=
  (h.edge_iff s d c hs hd).2 ((step_eq_ok_iff_successor? hs.lt_numStates).1 hstep)

theorem Depicts.walk_of_run (h : a.Depicts a.Matters v) (hs : ∃ u, a.run initial u = .ok s)
    (hw : a.run s w = .ok d) (hd : ∃ x, x ∈ a.languageFrom d) : v.Walk s w d := by
  induction w generalizing s with
  | nil =>
    cases hw
    exact .nil _
  | cons c w ih =>
    obtain ⟨u, hu⟩ := hs
    obtain ⟨x, hx⟩ := hd
    obtain ⟨s', hstep, hrun⟩ := run_cons_eq_ok_iff.1 hw
    have hs : a.Matters s := .inr ⟨⟨u, hu⟩, _, append_mem_languageFrom_iff.2 ⟨d, hw, hx⟩⟩
    have hu' := run_snoc hu hstep
    have hs' : a.Matters s' := .inr ⟨⟨_, hu'⟩, _, append_mem_languageFrom_iff.2 ⟨d, hrun, hx⟩⟩
    obtain ⟨e, hmem, rfl, rfl, hlabel⟩ := h.exists_edge hs hs' hstep
    exact .cons hmem hlabel (ih ⟨_, hu'⟩ hrun)

theorem Depicts.spells_iff (h : a.Depicts a.Matters v) : v.Spells w ↔ w ∈ a.language := by
  constructor
  · rintro ⟨i, hi, hinitial, f, hf, haccepting, hwalk⟩
    have hrun := h.run_of_walk hwalk
    rw [((h.mem_nodes_iff i).1 hi).2] at hinitial
    rw [((h.mem_nodes_iff f).1 hf).2] at haccepting
    rw [of_decide_eq_true hinitial] at hrun
    exact ⟨f.state, hrun, haccepting⟩
  · rintro ⟨d, hrun, haccepting⟩
    have hd : [] ∈ a.languageFrom d := nil_mem_languageFrom_iff.2 haccepting
    refine ⟨a.viewNode initial, (h.mem_nodes_iff _).2 ⟨.inl rfl, rfl⟩, rfl, a.viewNode d, ?_,
      haccepting, h.walk_of_run ⟨[], rfl⟩ hrun ⟨[], hd⟩⟩
    exact (h.mem_nodes_iff _).2 ⟨.inr ⟨⟨w, hrun⟩, [], hd⟩, rfl⟩

theorem Depicts.leadsThrough (h : a.Depicts a.Matters v) (hs : a.Matters s) (hne : s ≠ initial) :
    v.LeadsThrough s := by
  obtain ⟨⟨u, hu⟩, w, hw⟩ := hs.resolve_left hne
  obtain ⟨d, hrun, haccepting⟩ := id hw
  have hd : [] ∈ a.languageFrom d := nil_mem_languageFrom_iff.2 haccepting
  have hreachable := run_append_eq_ok_iff.2 ⟨s, hu, hrun⟩
  refine ⟨a.viewNode initial, (h.mem_nodes_iff _).2 ⟨.inl rfl, rfl⟩, rfl, a.viewNode d, ?_,
    haccepting, u, w, h.walk_of_run ⟨[], rfl⟩ hu ⟨w, hw⟩, h.walk_of_run ⟨u, hu⟩ hrun ⟨[], hd⟩⟩
  exact (h.mem_nodes_iff _).2 ⟨.inr ⟨⟨_, hreachable⟩, [], hd⟩, rfl⟩

theorem eq_nil_or_eq_singleton {α : Type} {l : List α} (hl : l.Nodup)
    (h : ∀ x ∈ l, ∀ y ∈ l, x = y) : l = [] ∨ ∃ x, l = [x] := by
  match l with
  | [] => exact .inl rfl
  | [x] => exact .inr ⟨x, rfl⟩
  | x :: y :: l =>
    rw [h x List.mem_cons_self y (List.mem_cons_of_mem x List.mem_cons_self)] at hl
    exact absurd List.mem_cons_self (List.nodup_cons.1 hl).1

theorem Depicts.nodup_nodes (h : a.Depicts kept v) : v.nodes.Nodup := by
  apply h.nodes_increasing.imp
  rintro n _ hlt rfl
  exact Nat.lt_irrefl _ hlt

theorem Depicts.nodup_edges (h : a.Depicts kept v) : v.edges.Nodup := by
  apply h.edges_increasing.imp
  rintro e _ (hlt | ⟨_, hlt⟩) rfl
  · exact Nat.lt_irrefl _ hlt
  · exact Nat.lt_irrefl _ hlt

theorem Matters.eq_initial (h : a.Matters s) (hempty : ∀ w, w ∉ a.language) : s = initial := by
  rcases h with rfl | ⟨⟨u, hu⟩, w, hw⟩
  · rfl
  · exact absurd (append_mem_languageFrom_iff.2 ⟨s, hu, hw⟩) (hempty (u ++ w))

theorem Depicts.nodes_of_language_empty (h : a.Depicts a.Matters v) (hempty : ∀ w, w ∉ a.language) :
    v.nodes = [a.viewNode initial] := by
  have hnodes : ∀ n ∈ v.nodes, n = a.viewNode initial := by
    intro n hn
    obtain ⟨hs, heq⟩ := (h.mem_nodes_iff n).1 hn
    rw [heq, hs.eq_initial hempty]
  have hmem : a.viewNode initial ∈ v.nodes := (h.mem_nodes_iff _).2 ⟨.inl rfl, rfl⟩
  have hunique : ∀ n ∈ v.nodes, ∀ m ∈ v.nodes, n = m := by
    intro n hn m hm
    rw [hnodes n hn, hnodes m hm]
  rcases eq_nil_or_eq_singleton h.nodup_nodes hunique with hnil | ⟨n, hn⟩
  · exact absurd (hnil ▸ hmem) List.not_mem_nil
  · rw [hn] at hmem ⊢
    rw [List.mem_singleton.1 hmem]

theorem Depicts.edges_of_language_empty (h : a.Depicts a.Matters v) (hempty : ∀ w, w ∉ a.language) :
    v.edges = [] ∨ ∃ e, v.edges = [e] ∧ e.source = initial ∧ e.target = initial := by
  have hends : ∀ e ∈ v.edges, e.source = initial ∧ e.target = initial := by
    intro e he
    obtain ⟨hsource, htarget⟩ := h.ends_kept e he
    exact ⟨hsource.eq_initial hempty, htarget.eq_initial hempty⟩
  have hunique : ∀ e ∈ v.edges, ∀ f ∈ v.edges, e = f := by
    intro e he f hf
    apply h.edge_unique e he f hf
    · rw [(hends e he).1, (hends f hf).1]
    · rw [(hends e he).2, (hends f hf).2]
  rcases eq_nil_or_eq_singleton h.nodup_edges hunique with hnil | ⟨e, he⟩
  · exact .inl hnil
  · exact .inr ⟨e, he, hends e (he ▸ List.mem_singleton_self e)⟩

/--
The picture of the states that matter spells exactly the accepted words and has every transition
between two of its states. All its nodes but the initial one are on the way of an accepted word, so
without accepted words it has nothing but the initial node, with or without an edge to itself.
-/
theorem liveView_exact (a : Automaton) :
    (∀ w, a.liveView.Spells w ↔ a.accepts w = .ok true) ∧
    (∀ n ∈ a.liveView.nodes, n.initial = false → a.liveView.LeadsThrough n.state) ∧
    (∀ n ∈ a.liveView.nodes, ∀ m ∈ a.liveView.nodes, ∀ c, a.step n.state c = .ok m.state →
      ∃ e ∈ a.liveView.edges, e.source = n.state ∧ e.target = m.state ∧ e.contains c = true) ∧
    ((∀ w, a.accepts w ≠ .ok true) → a.liveView.nodes = [a.viewNode initial] ∧
      (a.liveView.edges = [] ∨
        ∃ e, a.liveView.edges = [e] ∧ e.source = initial ∧ e.target = initial)) := by
  have h := a.depicts_liveView
  refine ⟨fun w => ?_, ?_, ?_, ?_⟩
  · rw [accepts_eq_ok_true_iff]
    exact h.spells_iff
  · intro n hn hinitial
    obtain ⟨hs, heq⟩ := (h.mem_nodes_iff n).1 hn
    rw [heq] at hinitial
    exact h.leadsThrough hs (of_decide_eq_false hinitial)
  · intro n hn m hm c hstep
    exact h.exists_edge ((h.mem_nodes_iff n).1 hn).1 ((h.mem_nodes_iff m).1 hm).1 hstep
  · intro hempty
    have hlanguage : ∀ w, w ∉ a.language := fun w hw => hempty w (accepts_eq_ok_true_iff.2 hw)
    exact ⟨h.nodes_of_language_empty hlanguage, h.edges_of_language_empty hlanguage⟩

end Words

end Automaton

end Residual
