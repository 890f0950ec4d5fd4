import Mathlib.Algebra.BigOperators.Group.List.Basic
import Mathlib.Algebra.Field.Rat
import Mathlib.Data.Nat.Count
import Mathlib.Tactic.FieldSimp
import Residual.Proofs.Words.Counts
import Residual.Words.Source

/-!
This module contains the correctness of sampling. A word is chosen by one draw for each symbol, and
the shares of the draws that choose the symbols of a word multiply to the same number for all words.
-/

namespace Residual

section Pick

variable {α κ : Type} {weight : α → Nat} {key : α → κ} {l : List α}

theorem pick_cons_add (y : α) (l : List α) (x : Nat) :
    pick weight (y :: l) (weight y + x) = pick weight l x := by
  rw [pick, if_neg (Nat.not_lt_of_le (Nat.le_add_right ..)), Nat.add_sub_cancel_left]

def pickKey (weight : α → Nat) (key : α → κ) (l : List α) (x : Nat) : Option κ :=
  (pick weight l x).map fun r => key r.1

theorem exists_mem_of_pickKey {k : κ} {x : Nat} (h : pickKey weight key l x = some k) :
    ∃ y ∈ l, key y = k := by
  obtain ⟨⟨y, r⟩, hpick, hkey⟩ := Option.map_eq_some_iff.1 h
  exact ⟨y, mem_of_pick hpick, hkey⟩

theorem count_pickKey [DecidableEq κ] (hl : l.Pairwise fun y z => key y ≠ key z) {y : α} (hy : y ∈ l) :
    Nat.count (fun x => pickKey weight key l x = some (key y)) (l.map weight).sum = weight y := by
  induction l with
  | nil => contradiction
  | cons z l ih =>
    obtain ⟨hz, hl⟩ := List.pairwise_cons.1 hl
    have hfirst : ∀ x < weight z, pickKey weight key (z :: l) x = some (key z) := by
      intro x hx
      rw [pickKey, pick, if_pos hx]
      rfl
    have hlater : ∀ x, pickKey weight key (z :: l) (weight z + x) = pickKey weight key l x := by
      intro x
      rw [pickKey, pick_cons_add, pickKey]
    -- the first entry takes the first positions, the other entries share those after it
    rw [List.map_cons, List.sum_cons, Nat.count_add]
    simp only [hlater]
    rcases List.mem_cons.1 hy with rfl | hy
    · rw [Nat.count_of_forall hfirst, Nat.count_of_forall_not, Nat.add_zero]
      intro x _ hx
      obtain ⟨u, hu, hkey⟩ := exists_mem_of_pickKey hx
      exact hz u hu hkey.symm
    · rw [ih hl hy, Nat.count_of_forall_not, Nat.zero_add]
      intro x hx hkey
      rw [hfirst x hx] at hkey
      exact hz y hy (Option.some.inj hkey)

end Pick

structure Drawn where
  bound : Nat
  value : Nat

def Draw.recorded {ρ : Type} (draw : Draw ρ) : Draw (ρ × List Drawn) :=
  fun n h (source, drawn) =>
    let (x, source) := draw n h source
    (x, source, drawn ++ [⟨n, x⟩])

theorem Draw.congr {ρ : Type} (draw : Draw ρ) {m n : Nat} (h : m = n) (hm : 0 < m) (hn : 0 < n)
    (source : ρ) : (draw m hm source).1.val = (draw n hn source).1.val ∧
      (draw m hm source).2 = (draw n hn source).2 := by
  subst h
  exact ⟨rfl, rfl⟩

structure Choice where
  bound : Nat
  selects : Nat → Bool

namespace Choice

def share (c : Choice) : ℚ := Nat.count (fun x => c.selects x = true) c.bound / c.bound

def Admits (c : Choice) (d : Drawn) : Prop := d.bound = c.bound ∧ c.selects d.value = true

end Choice

namespace Automaton

variable {a : Automaton} {s d : StateId} {n : Nat} {c : Char} {v w : List Char}

def symbolAt? (a : Automaton) (n : Nat) (s : StateId) (x : Nat) : Option Char :=
  pickKey (fun e => (a.words n e.2).length) Prod.fst (a.edges s) x

def choices (a : Automaton) : StateId → List Char → List Choice
  | _, [] => []
  | s, c :: w =>
    ⟨(a.words (w.length + 1) s).length, fun x => a.symbolAt? w.length s x = some c⟩ ::
      match a.step s c with
      | .ok d => a.choices d w
      | .error _ => []

theorem choices_cons (hstep : a.step s c = .ok d) : a.choices s (c :: w) =
    ⟨(a.words (w.length + 1) s).length, fun x => a.symbolAt? w.length s x = some c⟩ ::
      a.choices d w := by
  rw [choices, hstep]

theorem length_words_succ (a : Automaton) (n : Nat) (s : StateId) : (a.words (n + 1) s).length =
    ((a.edges s).map fun e => (a.words n e.2).length).sum := by
  rw [words, List.length_flatMap]
  simp only [List.length_map]

theorem exists_of_mem_words_succ (hs : s < a.numStates) (h : w ∈ a.words (n + 1) s) :
    ∃ c d v, w = c :: v ∧ (c, d) ∈ a.edges s ∧ a.step s c = .ok d ∧ d < a.numStates ∧
      v ∈ a.words n d ∧ v.length = n := by
  obtain ⟨⟨c, d⟩, hedge, hw⟩ := List.mem_flatMap.1 h
  obtain ⟨v, hv, rfl⟩ := List.mem_map.1 hw
  have hd := lt_of_mem_edges hedge
  exact ⟨c, d, v, rfl, hedge, (mem_edges_iff hs).1 hedge, hd, hv, ((mem_words_iff hd).1 hv).1⟩

section Stem

variable {stem : List Char}

theorem mem_words_iff_append (hstem : a.run initial stem = .ok s) :
    w ∈ a.words n s ↔ w.length = n ∧ stem ++ w ∈ a.language := by
  have hs := lt_of_run a.size_pos hstem
  rw [mem_words_iff hs, language, append_mem_languageFrom_iff]
  simp [hstem]

theorem words_eq_nil_iff (hstem : a.run initial stem = .ok s) : a.words n s = [] ↔
    {v | v ∈ a.language ∧ ∃ w, w.length = n ∧ v = stem ++ w} = ∅ := by
  rw [Set.eq_empty_iff_forall_notMem, List.eq_nil_iff_forall_not_mem]
  constructor
  · rintro hnone v ⟨hv, w, hlength, rfl⟩
    exact hnone w ((mem_words_iff_append hstem).2 ⟨hlength, hv⟩)
  · intro hnone w hw
    obtain ⟨hlength, hw⟩ := (mem_words_iff_append hstem).1 hw
    exact hnone _ ⟨hw, w, hlength, rfl⟩

end Stem

theorem length_choices (hs : s < a.numStates) (h : w ∈ a.words n s) :
    (a.choices s w).length = n := by
  induction n generalizing s w with
  | zero =>
    rw [List.length_eq_zero_iff.1 ((mem_words_iff hs).1 h).1]
    rfl
  | succ n ih =>
    obtain ⟨c, d, v, rfl, _, hstep, hd, hv, _⟩ := exists_of_mem_words_succ hs h
    rw [choices_cons hstep, List.length_cons, ih hd hv]

theorem count_symbolAt? (hs : s < a.numStates) (h : (c, d) ∈ a.edges s) (n : Nat) :
    Nat.count (fun x => a.symbolAt? n s x = some c) (a.words (n + 1) s).length =
      (a.words n d).length := by
  rw [length_words_succ]
  exact count_pickKey (pairwise_edges hs) h

theorem prod_share_choices (hs : s < a.numStates) (h : w ∈ a.words n s) :
    ((a.choices s w).map Choice.share).prod = 1 / (a.words n s).length := by
  induction n generalizing s w with
  | zero =>
    have haccepting : a.accepting s = true := by
      by_contra hne
      rw [words, if_neg hne] at h
      exact absurd h List.not_mem_nil
    rw [words, if_pos haccepting] at h
    rw [words, if_pos haccepting, List.mem_singleton.1 h]
    simp [choices]
  | succ n ih =>
    obtain ⟨c, d, v, rfl, hedge, hstep, hd, hv, rfl⟩ := exists_of_mem_words_succ hs h
    have htail : ((a.words v.length d).length : ℚ) ≠ 0 := by
      exact_mod_cast (List.length_pos_of_mem hv).ne'
    -- the words after the first symbol are counted by its share and bound the shares of the rest
    rw [choices_cons hstep, List.map_cons, List.prod_cons, ih hd hv, Choice.share]
    simp only [decide_eq_true_eq, count_symbolAt? hs hedge]
    field_simp

theorem eq_of_admits (hs : s < a.numStates) (hv : v ∈ a.words n s) (hw : w ∈ a.words n s)
    {drawn : List Drawn} (hdv : List.Forall₂ Choice.Admits (a.choices s v) drawn)
    (hdw : List.Forall₂ Choice.Admits (a.choices s w) drawn) : v = w := by
  induction n generalizing s v w drawn with
  | zero =>
    rw [mem_words_iff hs, List.length_eq_zero_iff] at hv hw
    exact hv.1.trans hw.1.symm
  | succ n ih =>
    obtain ⟨c, d, v, rfl, _, hc, hd, hv, hvlength⟩ := exists_of_mem_words_succ hs hv
    obtain ⟨c', d', w, rfl, _, hc', _, hw, hwlength⟩ := exists_of_mem_words_succ hs hw
    rw [choices_cons hc, List.forall₂_cons_left_iff] at hdv
    obtain ⟨x, drawn, ⟨_, hx⟩, hdv, rfl⟩ := hdv
    rw [choices_cons hc', List.forall₂_cons] at hdw
    obtain ⟨⟨_, hx'⟩, hdw⟩ := hdw
    have hsymbol : a.symbolAt? n s x.value = some c := hvlength ▸ of_decide_eq_true hx
    have hsymbol' : a.symbolAt? n s x.value = some c' := hwlength ▸ of_decide_eq_true hx'
    -- the number that was drawn first picks one symbol only, and the symbol decides the next state
    obtain rfl : c = c' := Option.some.inj (hsymbol.symm.trans hsymbol')
    obtain rfl : d = d' := Except.ok.inj (hc.symm.trans hc')
    rw [ih hd hv hw hdv hdw]

end Automaton

namespace Counts

variable {g g' : Counts} {s : StateId} {n : Nat} {ρ : Type} {draw : Draw ρ} {source : ρ}

section Choose

theorem pick_lookup (hn : n ≤ g.maxLength) (x : Nat) :
    pick (fun e => g.lookup n e.2) (g.automaton.edges s) x =
      pick (fun e => (g.automaton.words n e.2).length) (g.automaton.edges s) x := by
  simp only [lookup_eq_length hn]

theorem lookup_pos_of_pick {c : Char} {d : StateId} {x y : Nat}
    (h : pick (fun e => g.lookup n e.2) (g.automaton.edges s) x = some ((c, d), y)) :
    0 < g.lookup n d := by
  have hlt := lt_weight_of_pick h
  exact Nat.zero_lt_of_lt hlt

theorem choose_succ (hn : n + 1 ≤ g.maxLength) (hs : 0 < g.lookup (n + 1) s) {c : Char}
    {d : StateId} {y : Nat} (hpick : pick (fun e => g.lookup n e.2) (g.automaton.edges s)
      (draw (g.lookup (n + 1) s) hs source).1 = some ((c, d), y)) :
    g.choose draw (n + 1) s hn hs source =
      let r := g.choose draw n d (Nat.le_of_succ_le hn) (lookup_pos_of_pick hpick)
        (draw (g.lookup (n + 1) s) hs source).2
      (c :: r.1, r.2) := by
  rw [choose]
  dsimp only
  split
  next h =>
    cases hpick.symm.trans h
    rfl
  next h =>
    rw [hpick] at h
    contradiction

theorem choose_recorded (hs : s < g.automaton.numStates) (hn : n ≤ g.maxLength)
    (hpos : 0 < g.lookup n s) (draw : Draw ρ) (source : ρ) (earlier : List Drawn) :
    let r := g.choose draw n s hn hpos source
    ∃ drawn, g.choose draw.recorded n s hn hpos (source, earlier) =
        (r.1, r.2, earlier ++ drawn) ∧
      r.1 ∈ g.automaton.words n s ∧ (∀ x ∈ drawn, x.value < x.bound) ∧
      List.Forall₂ Choice.Admits (g.automaton.choices s r.1) drawn := by
  induction n generalizing s source earlier with
  | zero =>
    refine ⟨[], ?_, ?_, ?_, .nil⟩
    · rw [List.append_nil]
      rfl
    · rw [lookup_eq_length hn, List.length_pos_iff_exists_mem] at hpos
      obtain ⟨w, hw⟩ := hpos
      obtain rfl : w = [] := List.length_eq_zero_iff.1 ((Automaton.mem_words_iff hs).1 hw).1
      exact hw
    · exact List.forall_mem_nil _
  | succ n ih =>
    have hn' : n ≤ g.maxLength := Nat.le_of_succ_le hn
    cases hpick : pick (fun e => g.lookup n e.2) (g.automaton.edges s)
        (draw (g.lookup (n + 1) s) hpos source).1 with
    | none => exact absurd hpick (pick_ne_none (lookup_succ hn s ▸ Fin.isLt _))
    | some r =>
      obtain ⟨⟨c, d⟩, y⟩ := r
      have hedge := mem_of_pick hpick
      have hstep := (Automaton.mem_edges_iff hs).1 hedge
      have hd := Automaton.lt_of_mem_edges hedge
      -- both runs pick the same edge, since the recorded draw gives the same number
      let first : Drawn := ⟨g.lookup (n + 1) s, (draw (g.lookup (n + 1) s) hpos source).1⟩
      let source' := (draw (g.lookup (n + 1) s) hpos source).2
      obtain ⟨drawn, hrecorded, hmem, hlt, hadmits⟩ :=
        ih hd hn' (lookup_pos_of_pick hpick) source' (earlier ++ [first])
      have hlength := ((Automaton.mem_words_iff hd).1 hmem).1
      have hpick' : pick (fun e => g.lookup n e.2) (g.automaton.edges s)
        (draw.recorded (g.lookup (n + 1) s) hpos (source, earlier)).1 = some ((c, d), y) := hpick
      have hsource : (draw.recorded (g.lookup (n + 1) s) hpos (source, earlier)).2 =
        (source', earlier ++ [first]) := rfl
      rw [choose_succ hn hpos hpick, choose_succ hn hpos hpick', hsource, hrecorded]
      refine ⟨first :: drawn, ?_, ?_, ?_, ?_⟩
      · rw [List.append_assoc]
        rfl
      · exact List.mem_flatMap.2 ⟨(c, d), hedge, List.mem_map_of_mem hmem⟩
      · exact List.forall_mem_cons.2 ⟨Fin.isLt _, hlt⟩
      · rw [Automaton.choices_cons hstep]
        refine .cons ⟨?_, ?_⟩ hadmits
        · rw [hlength]
          exact lookup_eq_length hn s
        · rw [pick_lookup hn'] at hpick
          apply decide_eq_true
          rw [hlength, Automaton.symbolAt?, pickKey, hpick]
          rfl

theorem choose_congr (h : g.automaton = g'.automaton) (hn : n ≤ g.maxLength)
    (hn' : n ≤ g'.maxLength) (hs : 0 < g.lookup n s) (hs' : 0 < g'.lookup n s) (source : ρ) :
    g.choose draw n s hn hs source = g'.choose draw n s hn' hs' source := by
  induction n generalizing s source with
  | zero => rfl
  | succ n ih =>
    have hlookup : g.lookup (n + 1) s = g'.lookup (n + 1) s := by
      rw [lookup_eq_length hn, lookup_eq_length hn', h]
    obtain ⟨hvalue, hsource⟩ := draw.congr hlookup hs hs' source
    cases hpick : pick (fun e => g.lookup n e.2) (g.automaton.edges s)
        (draw (g.lookup (n + 1) s) hs source).1 with
    | none => exact absurd hpick (pick_ne_none (lookup_succ hn s ▸ Fin.isLt _))
    | some r =>
      obtain ⟨⟨c, d⟩, y⟩ := r
      have hpick' := hpick
      rw [pick_lookup (Nat.le_of_succ_le hn), h, ← pick_lookup (Nat.le_of_succ_le hn'),
        hvalue] at hpick'
      rw [choose_succ hn hs hpick, choose_succ hn' hs' hpick', hsource]
      dsimp only
      rw [ih]

end Choose

section Sample

theorem sampleFrom_of_eq_nil (h : g.automaton.words n s = []) :
    (g.sampleFrom draw s n source).value.1 = (none, source) := by
  have hlookup : (g.extendTo n).value.lookup n s = 0 := by
    rw [lookup_eq_length (g.le_maxLength_extendTo n), automaton_extendTo, h, List.length_nil]
  rw [sampleFrom]
  dsimp only
  rw [dif_pos hlookup]

theorem sampleFrom_of_ne_nil (h : g.automaton.words n s ≠ []) :
    ∃ hpos : 0 < (g.extendTo n).value.lookup n s, ∀ {ρ : Type} (draw : Draw ρ) (source : ρ),
      let r := (g.extendTo n).value.choose draw n s (g.le_maxLength_extendTo n) hpos source
      (g.sampleFrom draw s n source).value.1 = (some r.1, r.2) := by
  have hpos : 0 < (g.extendTo n).value.lookup n s := by
    rw [lookup_eq_length (g.le_maxLength_extendTo n), automaton_extendTo]
    exact List.length_pos_iff.2 h
  refine ⟨hpos, ?_⟩
  intro ρ draw source
  rw [sampleFrom]
  dsimp only
  rw [dif_neg hpos.ne']

theorem sampleFrom_congr (h : g.automaton = g'.automaton) :
    (g.sampleFrom draw s n source).value.1 = (g'.sampleFrom draw s n source).value.1 := by
  by_cases hwords : g.automaton.words n s = []
  · rw [sampleFrom_of_eq_nil hwords, sampleFrom_of_eq_nil (h ▸ hwords)]
  · obtain ⟨hpos, hchoose⟩ := sampleFrom_of_ne_nil hwords
    obtain ⟨hpos', hchoose'⟩ := sampleFrom_of_ne_nil (h ▸ hwords)
    have hautomaton : (g.extendTo n).value.automaton = (g'.extendTo n).value.automaton := by
      rw [automaton_extendTo, automaton_extendTo, h]
    rw [hchoose, hchoose', choose_congr hautomaton]

theorem sampleFrom_recorded (hs : s < g.automaton.numStates) (draw : Draw ρ) (source : ρ) :
    let r := (g.sampleFrom draw.recorded s n (source, [])).value.1
    (g.sampleFrom draw s n source).value.1 = (r.1, r.2.1) ∧
      (g.automaton.words n s = [] → r = (none, source, [])) ∧
      (g.automaton.words n s ≠ [] → ∃ w ∈ g.automaton.words n s, r.1 = some w ∧
        (∀ x ∈ r.2.2, x.value < x.bound) ∧
        List.Forall₂ Choice.Admits (g.automaton.choices s w) r.2.2) := by
  by_cases hwords : g.automaton.words n s = []
  · rw [sampleFrom_of_eq_nil hwords, sampleFrom_of_eq_nil hwords]
    exact ⟨rfl, fun _ => rfl, fun hne => absurd hwords hne⟩
  · obtain ⟨hpos, hchoose⟩ := sampleFrom_of_ne_nil hwords
    have hautomaton := g.automaton_extendTo n
    obtain ⟨drawn, hrecorded, hmem, hlt, hadmits⟩ :=
      choose_recorded (hautomaton.symm ▸ hs) (g.le_maxLength_extendTo n) hpos draw source []
    rw [hautomaton] at hmem hadmits
    rw [hchoose, hchoose, hrecorded]
    exact ⟨rfl, fun h => absurd h hwords, fun _ => ⟨_, hmem, rfl, hlt, hadmits⟩⟩

theorem sample_eq_sampleFrom : (g.sample draw n source).value.1 =
    (g.sampleFrom draw Automaton.initial n source).value.1 := by
  rw [sample]
  split
  next h =>
    have hrun : g.automaton.run Automaton.initial [] = .ok Automaton.initial := rfl
    have hlength := length_words_of_excludes (k := n) hrun (by rwa [List.length_nil, Nat.zero_add])
    rw [sampleFrom_of_eq_nil (List.length_eq_zero_iff.1 hlength)]
    rfl
  · rfl

theorem sampleWith_of_run {stem : List Char} (h : g.automaton.run Automaton.initial stem = .ok s) :
    (g.sampleWith draw stem n source).value.1 =
      (.ok ((g.sampleFrom draw s n source).value.1.1.map (stem ++ ·)),
        (g.sampleFrom draw s n source).value.1.2) := by
  rw [sampleWith, h]
  dsimp only
  split
  next hexcludes =>
    have hlength := length_words_of_excludes h (LengthBound.excludes_add_of_addLengths hexcludes)
    rw [sampleFrom_of_eq_nil (List.length_eq_zero_iff.1 hlength)]
    rfl
  · rfl

theorem sampleWith_recorded {stem : List Char}
    (h : g.automaton.run Automaton.initial stem = .ok s) (draw : Draw ρ) (source : ρ) :
    let r := (g.sampleWith draw.recorded stem n (source, [])).value.1
    (g.sampleWith draw stem n source).value.1 = (r.1, r.2.1) ∧
      (g.automaton.words n s = [] → r = (.ok none, source, [])) ∧
      (g.automaton.words n s ≠ [] → ∃ w ∈ g.automaton.words n s, r.1 = .ok (some (stem ++ w)) ∧
        (∀ x ∈ r.2.2, x.value < x.bound) ∧
        List.Forall₂ Choice.Admits (g.automaton.choices s w) r.2.2) := by
  have hs := Automaton.lt_of_run g.automaton.size_pos h
  obtain ⟨hplain, hnone, hsome⟩ := sampleFrom_recorded (n := n) hs draw source
  rw [sampleWith_of_run h, sampleWith_of_run h]
  refine ⟨?_, ?_, ?_⟩
  · rw [hplain]
  · intro hwords
    rw [hnone hwords]
    rfl
  · intro hwords
    obtain ⟨w, hw, hr, hdrawn⟩ := hsome hwords
    refine ⟨w, hw, ?_, hdrawn⟩
    rw [hr]
    rfl

/--
Sampling is uniform, whatever the table of counts was asked before. If no accepted word begins with
the stem and has `n` symbols after it, nothing is drawn and there is no result. Otherwise `n` numbers
are drawn and the result is such a word; which one depends on these numbers only: a word comes out
if each number admits its next symbol, and the shares of the numbers that do multiply to one over the
number of words. A sample without a stem is one with the empty stem.
-/
theorem Reachable.sampling_uniform {a : Automaton} (h : Reachable a g) {stem : List Char}
    (hstem : ∀ c ∈ stem, c ∈ a.alphabet) (n : Nat) :
    let words := {v | v ∈ a.language ∧ ∃ w, w.length = n ∧ v = stem ++ w}
    (∀ {ρ : Type} (draw : Draw ρ) (source : ρ),
      let r := (g.sampleWith draw.recorded stem n (source, [])).value.1
      (g.sampleWith draw stem n source).value.1 = (r.1, r.2.1) ∧
      (r.1 = .ok none ↔ words = ∅) ∧ (words = ∅ → r.2 = (source, [])) ∧
      (words ≠ ∅ → ∃ v ∈ words, r.1 = .ok (some v) ∧ r.2.2.length = n ∧
        ∀ x ∈ r.2.2, 0 < x.bound ∧ x.value < x.bound) ∧
      ∀ g', Reachable a g' → (g'.sampleWith draw.recorded stem n (source, [])).value.1 = r) ∧
    (∃ s N, a.run Automaton.initial stem = .ok s ∧ (g.countCompletions stem n).value.1 = .ok N ∧
      ∀ w, w.length = n → stem ++ w ∈ a.language → (a.choices s w).length = n ∧
        ((a.choices s w).map Choice.share).prod = 1 / N ∧
        ∀ {ρ : Type} (draw : Draw ρ) (source : ρ),
          let r := (g.sampleWith draw.recorded stem n (source, [])).value.1
          r.1 = .ok (some (stem ++ w)) ↔ List.Forall₂ Choice.Admits (a.choices s w) r.2.2) ∧
    ∀ {ρ : Type} (draw : Draw ρ) (source : ρ),
      let r := (g.sample draw n source).value.1
      (g.sampleWith draw [] n source).value.1 = (.ok r.1, r.2) := by
  obtain rfl := h.automaton_eq
  obtain ⟨s, hrun⟩ := Automaton.exists_run_iff.2 hstem
  have hs := Automaton.lt_of_run g.automaton.size_pos hrun
  intro words
  have hempty : words = ∅ ↔ g.automaton.words n s = [] := (Automaton.words_eq_nil_iff hrun).symm
  refine ⟨?_, ⟨s, (g.automaton.words n s).length, hrun, countCompletions_of_run hrun, ?_⟩, ?_⟩
  · intro ρ draw source r
    obtain ⟨hplain, hnone, hsome⟩ := sampleWith_recorded (n := n) hrun draw source
    refine ⟨hplain, ?_, ?_, ?_, ?_⟩
    · rw [hempty]
      constructor
      · intro hr
        by_contra hwords
        obtain ⟨w, _, hw, _⟩ := hsome hwords
        cases Except.ok.inj (hr.symm.trans hw)
      · intro hwords
        exact congrArg Prod.fst (hnone hwords)
    · intro hwords
      exact congrArg Prod.snd (hnone (hempty.1 hwords))
    · intro hwords
      obtain ⟨w, hw, hr, hlt, hadmits⟩ := hsome (mt hempty.2 hwords)
      obtain ⟨hlength, hv⟩ := (Automaton.mem_words_iff_append hrun).1 hw
      refine ⟨stem ++ w, ⟨hv, w, hlength, rfl⟩, hr, ?_, ?_⟩
      · exact hadmits.length_eq.symm.trans (Automaton.length_choices hs hw)
      · intro x hx
        exact ⟨Nat.zero_lt_of_lt (hlt x hx), hlt x hx⟩
    · intro g' hg'
      have hautomaton := hg'.automaton_eq
      show (g'.sampleWith draw.recorded stem n (source, [])).value.1 =
        (g.sampleWith draw.recorded stem n (source, [])).value.1
      rw [sampleWith_of_run hrun, sampleWith_of_run (hautomaton ▸ hrun), sampleFrom_congr hautomaton]
  · intro w hlength hv
    have hw := (Automaton.mem_words_iff_append hrun).2 ⟨hlength, hv⟩
    refine ⟨Automaton.length_choices hs hw, Automaton.prod_share_choices hs hw, ?_⟩
    intro ρ draw source r
    obtain ⟨_, _, hsome⟩ := sampleWith_recorded (n := n) hrun draw source
    obtain ⟨w', hw', hr, _, hadmits⟩ := hsome (List.ne_nil_of_mem hw)
    constructor
    · intro hresult
      have hstems := Option.some.inj (Except.ok.inj (hr.symm.trans hresult))
      rw [← List.append_cancel_left hstems]
      exact hadmits
    · intro hadmits'
      rw [Automaton.eq_of_admits hs hw hw' hadmits' hadmits]
      exact hr
  · intro ρ draw source r
    rw [sampleWith_of_run (s := Automaton.initial) rfl, ← sample_eq_sampleFrom]
    simp [r]

theorem sampling_uniform_ordered :
    let b := Builder.start 0 (.ofList ['a', 'b']) |>.connect 0 0 0 |>.connect 0 1 1
      |>.connect 1 1 1 |>.connect 1 0 2 |>.connect 2 0 2 |>.connect 2 1 2
      |>.markFinal 0 |>.markFinal 1
    ∃ a, b.build = .ok a ∧
      let g := (ofAutomaton a).perform (.extendTo 1)
      Reachable a g ∧ (∀ c ∈ ['a'], c ∈ a.alphabet) ∧
      ((a.choices 0 ['b', 'b']).map Choice.share).prod = 1 / 3 ∧
      ∀ source, ∃ v, (g.sampleWith Source.below ['a'] 2 source).value.1.1 = .ok (some v) ∧
        v ∈ a.language ∧ v.length = 3 := by
  intro b
  have hfacts : (b.build.map fun a => (a.run Automaton.initial ['a'],
      (((ofAutomaton a).perform (.extendTo 1)).countCompletions ['a'] 2).value.1,
      a.accepts ['a', 'b', 'b'])) = .ok (.ok 0, .ok 3, .ok true) := by decide +kernel
  cases h : b.build with
  | error e =>
    rw [h] at hfacts
    contradiction
  | ok a =>
    rw [h] at hfacts
    simp only [Except.map, Except.ok.injEq, Prod.mk.injEq] at hfacts
    obtain ⟨hrun, hcount, haccepts⟩ := hfacts
    have hg : Reachable a ((ofAutomaton a).perform (.extendTo 1)) := .perform .start _
    have hstem : ∀ c ∈ ['a'], c ∈ a.alphabet := Automaton.exists_run_iff.1 ⟨_, hrun⟩
    obtain ⟨hsample, ⟨s, N, hs, hN, hwords⟩, _⟩ := hg.sampling_uniform hstem 2
    cases hrun.symm.trans hs
    cases hcount.symm.trans hN
    have hmem : ['a', 'b', 'b'] ∈ a.language := Automaton.accepts_eq_ok_true_iff.1 haccepts
    refine ⟨a, rfl, hg, hstem, (hwords ['b', 'b'] rfl hmem).2.1, ?_⟩
    intro source
    obtain ⟨hplain, _, _, hsome, _⟩ := hsample Source.below source
    obtain ⟨v, ⟨hv, w, hw, rfl⟩, hresult, _⟩ :=
      hsome (Set.nonempty_iff_ne_empty.1 ⟨_, hmem, ['b', 'b'], rfl, rfl⟩)
    refine ⟨['a'] ++ w, ?_, hv, ?_⟩
    · rw [hplain]
      exact hresult
    · rw [List.length_append, hw]
      rfl

end Sample

end Counts

end Residual
