import Residual.Words.Counts

/-!
This module contains the random choice of accepted words of a given length, each with the same
probability. A word is chosen symbol by symbol, in proportion to the number of ways to go on.
-/

namespace Residual

def pick {α : Type} (weight : α → Nat) : List α → Nat → Option (α × Nat)
  | [], _ => none
  | y :: ys, x => if x < weight y then some (y, x) else pick weight ys (x - weight y)

section Pick

variable {α : Type} {weight : α → Nat} {l : List α} {x r : Nat} {y : α}

theorem lt_weight_of_pick (h : pick weight l x = some (y, r)) : r < weight y := by
  fun_induction pick weight l x with
  | case1 => contradiction
  | case2 z l x hlt =>
    cases h
    exact hlt
  | case3 z l x _ ih => exact ih h

theorem mem_of_pick (h : pick weight l x = some (y, r)) : y ∈ l := by
  fun_induction pick weight l x with
  | case1 => contradiction
  | case2 z l x hlt =>
    cases h
    exact List.mem_cons_self
  | case3 z l x _ ih => exact List.mem_cons_of_mem z (ih h)

theorem foldl_le_of_pick_eq_none (h : pick weight l x = none) (k : Nat) :
    l.foldl (fun n y => n + weight y) k ≤ k + x := by
  fun_induction pick weight l x generalizing k with
  | case1 => exact Nat.le_add_right k _
  | case2 => contradiction
  | case3 z l x hge ih =>
    have hle := ih h (k + weight z)
    rwa [Nat.add_assoc, Nat.add_sub_cancel' (Nat.le_of_not_lt hge)] at hle

theorem pick_ne_none (h : x < l.foldl (fun n y => n + weight y) 0) : pick weight l x ≠ none := by
  intro hnone
  have hle := foldl_le_of_pick_eq_none hnone 0
  rw [Nat.zero_add] at hle
  exact Nat.not_lt_of_le hle h

end Pick

abbrev Draw (ρ : Type) := (n : Nat) → 0 < n → ρ → Fin n × ρ

namespace Counts

variable {ρ : Type}

def choose (g : Counts) (draw : Draw ρ) :
    (n : Nat) → (s : StateId) → n ≤ g.maxLength → 0 < g.lookup n s → ρ → List Char × ρ
  | 0, _, _, _, source => ([], source)
  | n + 1, s, hn, hs, source =>
    let (x, source) := draw (g.lookup (n + 1) s) hs source
    match h : pick (fun e => g.lookup n e.2) (g.automaton.edges s) x with
    | some ((c, d), _) =>
      have hlt := lt_weight_of_pick h
      let (w, source) :=
        g.choose draw n d (Nat.le_of_succ_le hn) (Nat.zero_lt_of_lt hlt) source
      (c :: w, source)
    | none => absurd h (pick_ne_none (lookup_succ hn s ▸ x.isLt))

def sampleFrom (g : Counts) (draw : Draw ρ) (s : StateId) (n : Nat) (source : ρ) :
    Logged ((Option (List Char) × ρ) × Counts) :=
  let extended := g.extendTo n
  let result :=
    if h : extended.value.lookup n s = 0 then (none, source)
    else
      let (w, source) :=
        extended.value.choose draw n s (g.le_maxLength_extendTo n) (Nat.pos_of_ne_zero h) source
      (some w, source)
  ⟨(result, extended.value), extended.log⟩

def sample (g : Counts) (draw : Draw ρ) (n : Nat) (source : ρ) :
    Logged ((Option (List Char) × ρ) × Counts) :=
  if g.bound.excludes n then return ((none, source), g)
  else g.sampleFrom draw Automaton.initial n source

def sampleWith (g : Counts) (draw : Draw ρ) (stem : List Char) (n : Nat) (source : ρ) :
    Logged ((Except Error (Option (List Char)) × ρ) × Counts) :=
  match g.automaton.run Automaton.initial stem with
  | .error e => return ((.error e, source), g)
  | .ok s =>
    if g.bound.excludes (addLengths stem.length n) then return ((.ok none, source), g)
    else do
      let ((w, source), g) ← g.sampleFrom draw s n source
      return ((.ok (w.map (stem ++ ·)), source), g)

end Counts

end Residual
