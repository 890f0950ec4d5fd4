import Mathlib.Data.Char
import Residual.Proofs.Symbol.Range
import Residual.Proofs.Text.Escape
import Residual.Symbol.Set

/-!
This module contains what the written form of a set of symbols says about the set. It determines the
set unless there is a dash in it, which can be read as the dash of a range.
-/

namespace Residual

open Text

namespace SymbolRange

variable {r q : SymbolRange} {rs qs : List SymbolRange} {x y : Char}

section Shown

def shown (r : SymbolRange) : List Char :=
  if r.first.toNat + 1 = r.last.toNat then [r.first, r.last]
  else if r.first = r.last then [r.first]
  else [r.first, '-', r.last]

theorem written_dash : written ['-'] = ['-'] := by decide +kernel

theorem toList_bracketText (r : SymbolRange) : r.bracketText.toList = written r.shown := by
  unfold bracketText text isSingleton shown
  split
  · rw [String.toList_append, written_cons, written_cons]
    simp [written]
  · split
    next h =>
      rw [if_pos (of_decide_eq_true h)]
      simp [written]
    next h =>
      rw [if_neg (fun heq => h (decide_eq_true heq))]
      have hdash := written_dash
      simp only [written, List.flatMap_cons, List.flatMap_nil, List.append_nil] at hdash ⊢
      simp [hdash]

inductive Shows : SymbolRange → List Char → Prop where
  | single (x : Char) : Shows ⟨x, x⟩ [x]
  | pair {x y : Char} (h : x.toNat + 1 = y.toNat) : Shows ⟨x, y⟩ [x, y]
  | dashed {x y : Char} (h : x.toNat + 1 < y.toNat) : Shows ⟨x, y⟩ [x, '-', y]

theorem shows_shown (h : r.first.toNat ≤ r.last.toNat) : Shows r r.shown := by
  obtain ⟨x, y⟩ := r
  dsimp only at h
  unfold shown
  split
  next hpair => exact .pair hpair
  next hne =>
    split
    next hxy =>
      dsimp only at hxy
      subst hxy
      exact .single x
    next hxy =>
      have hlt := mt Char.toNat_inj.1 hxy
      dsimp only at hlt hne
      exact .dashed (by omega)

theorem shown_single (x : Char) : shown ⟨x, x⟩ = [x] := by simp [shown]

theorem shown_dashed (h : x.toNat + 1 < y.toNat) : shown ⟨x, y⟩ = [x, '-', y] := by
  have hne : x ≠ y := by
    rintro rfl
    omega
  rw [shown, if_neg (Nat.ne_of_lt h), if_neg hne]

end Shown

section Spaced

structure Spaced (rs : List SymbolRange) : Prop where
  ordered : ∀ r ∈ rs, r.first.toNat ≤ r.last.toNat
  gaps : rs.Pairwise fun r q => r.last.toNat + 1 < q.first.toNat

theorem Spaced.tail (h : Spaced (r :: rs)) : Spaced rs :=
  ⟨(List.forall_mem_cons.1 h.ordered).2, (List.pairwise_cons.1 h.gaps).2⟩

theorem Spaced.le (h : Spaced (r :: rs)) : r.first.toNat ≤ r.last.toNat :=
  h.ordered r List.mem_cons_self

theorem Spaced.lt (h : Spaced (r :: rs)) (hq : q ∈ rs) : r.last.toNat + 1 < q.first.toNat :=
  (List.pairwise_cons.1 h.gaps).1 q hq

theorem Spaced.last (h : Spaced (⟨x, y⟩ :: rs)) : Spaced (⟨y, y⟩ :: rs) where
  ordered := List.forall_mem_cons.2 ⟨Nat.le_refl _, h.tail.ordered⟩
  gaps := List.pairwise_cons.2 ⟨fun _ => h.lt, h.tail.gaps⟩

theorem spaced_compact {symbols : List Char} (h : Increasing symbols) :
    Spaced (compact symbols) := by
  induction symbols with
  | nil => exact ⟨by simp [compact], by simp [compact]⟩
  | cons c symbols ih =>
    obtain ⟨hc, hsymbols⟩ := List.pairwise_cons.1 h
    have hspaced := ih hsymbols
    have hlt : ∀ r ∈ compact symbols, c.toNat < r.first.toNat := by
      intro r hr
      have hmem : r.first ∈ symbols := by
        rw [← any_contains_compact, List.any_eq_true]
        exact ⟨r, hr, contains_iff.2 ⟨Nat.le_refl _, hspaced.ordered r hr⟩⟩
      exact Char.lt_def.1 (compare_lt_iff_lt.1 (hc r.first hmem))
    show Spaced (consSymbol c (compact symbols))
    generalize compact symbols = rs at hspaced hlt
    cases rs with
    | nil => exact ⟨by simp [consSymbol, singleton], by simp [consSymbol]⟩
    | cons r rs =>
      have hr := hlt r List.mem_cons_self
      have hle := hspaced.le
      rw [consSymbol_cons]
      split
      next hnext =>
        constructor
        · exact List.forall_mem_cons.2 ⟨by dsimp only; omega, hspaced.tail.ordered⟩
        · exact List.pairwise_cons.2 ⟨fun _ => hspaced.lt, hspaced.tail.gaps⟩
      next hnext =>
        constructor
        · exact List.forall_mem_cons.2 ⟨Nat.le_refl _, hspaced.ordered⟩
        · refine List.pairwise_cons.2 ⟨?_, hspaced.gaps⟩
          simp only [singleton, List.forall_mem_cons]
          refine ⟨by omega, fun q hq => ?_⟩
          have := hspaced.lt hq
          omega

end Spaced

section Reading

def listed (rs : List SymbolRange) : List Char := rs.flatMap shown

theorem listed_cons (r : SymbolRange) (rs : List SymbolRange) :
    listed (r :: rs) = r.shown ++ listed rs :=
  List.flatMap_cons

theorem exists_of_listed (hrs : Spaced rs) {l : List Char} (h : listed rs = x :: l) :
    ∃ r qs, rs = r :: qs ∧ r.first = x := by
  cases rs with
  | nil => contradiction
  | cons r qs =>
    have hshows := shows_shown hrs.le
    rw [listed_cons] at h
    generalize r.shown = m at h hshows
    cases hshows with
    | single | pair | dashed => exact ⟨_, qs, rfl, (List.cons.inj h).1⟩

theorem Shows.ne_nil {l : List Char} (h : Shows r l) : l ≠ [] := by
  cases h with
  | single | pair | dashed => exact List.cons_ne_nil _ _

theorem listed_ne_nil (hrs : Spaced (r :: rs)) : listed (r :: rs) ≠ [] := by
  rw [listed_cons]
  intro h
  exact (shows_shown hrs.le).ne_nil (List.append_eq_nil_iff.1 h).1

inductive Misread : List SymbolRange → List SymbolRange → Prop where
  | single {x y : Char} {rs qs : List SymbolRange} (hlt : x.toNat + 1 < y.toNat)
      (h : listed rs = '-' :: y :: listed qs) : Misread (⟨x, x⟩ :: rs) (⟨x, y⟩ :: qs)
  | pair {x y : Char} {rs qs : List SymbolRange} (hx : x.toNat + 1 = 45)
      (hlt : x.toNat + 1 < y.toNat) (h : listed rs = y :: listed qs) :
      Misread (⟨x, '-'⟩ :: rs) (⟨x, y⟩ :: qs)

theorem listed_ne_next (hrs : Spaced (⟨x, x⟩ :: rs)) (hxy : x.toNat + 1 = y.toNat) :
    listed rs ≠ y :: listed qs := by
  intro h
  obtain ⟨r, rs, rfl, rfl⟩ := exists_of_listed hrs.tail h
  have := hrs.lt List.mem_cons_self
  dsimp only at this
  omega

theorem head_cases (hrs : Spaced (r :: rs)) (hqs : Spaced (q :: qs))
    (h : listed (r :: rs) = listed (q :: qs)) :
    (r = q ∧ listed rs = listed qs) ∨ Misread (r :: rs) (q :: qs) ∨
      Misread (q :: qs) (r :: rs) := by
  have hr := shows_shown hrs.le
  have hq := shows_shown hqs.le
  rw [listed_cons, listed_cons] at h
  generalize r.shown = l at h hr
  generalize q.shown = m at h hq
  cases hr with
  | single x =>
    cases hq with
    | single y =>
      obtain ⟨rfl, hlisted⟩ := List.cons.inj h
      exact Or.inl ⟨rfl, hlisted⟩
    | pair hy =>
      obtain ⟨rfl, hlisted⟩ := List.cons.inj h
      exact absurd hlisted (listed_ne_next hrs hy)
    | dashed hy =>
      obtain ⟨rfl, hlisted⟩ := List.cons.inj h
      exact Or.inr (Or.inl (.single hy hlisted))
  | pair hx =>
    cases hq with
    | single y =>
      obtain ⟨rfl, hlisted⟩ := List.cons.inj h
      exact absurd hlisted.symm (listed_ne_next hqs hx)
    | pair hy =>
      obtain ⟨rfl, hlisted⟩ := List.cons.inj h
      obtain ⟨rfl, htail⟩ := List.cons.inj hlisted
      exact Or.inl ⟨rfl, htail⟩
    | dashed hy =>
      obtain ⟨rfl, hlisted⟩ := List.cons.inj h
      obtain ⟨rfl, htail⟩ := List.cons.inj hlisted
      exact Or.inr (Or.inl (.pair hx hy htail))
  | dashed hx =>
    cases hq with
    | single y =>
      obtain ⟨rfl, hlisted⟩ := List.cons.inj h
      exact Or.inr (Or.inr (.single hx hlisted.symm))
    | pair hy =>
      obtain ⟨rfl, hlisted⟩ := List.cons.inj h
      obtain ⟨rfl, htail⟩ := List.cons.inj hlisted
      exact Or.inr (Or.inr (.pair hy hx htail.symm))
    | dashed hy =>
      obtain ⟨rfl, hlisted⟩ := List.cons.inj h
      obtain ⟨rfl, htail⟩ := List.cons.inj (List.cons.inj hlisted).2
      exact Or.inl ⟨rfl, htail⟩

theorem Misread.lt_dash (h : Misread (r :: rs) (q :: qs)) (hrs : Spaced (r :: rs)) :
    r.first.toNat < 45 ∧ q.first = r.first := by
  cases h with
  | single _ hlisted =>
    obtain ⟨u, us, rfl, hu⟩ := exists_of_listed hrs.tail hlisted
    have := hrs.lt List.mem_cons_self
    rw [hu] at this
    have hdash : '-'.toNat = 45 := rfl
    dsimp only at this ⊢
    exact ⟨by omega, rfl⟩
  | pair hx _ _ =>
    dsimp only
    exact ⟨by omega, rfl⟩

theorem eq_of_listed (hrs : Spaced rs) (hqs : Spaced qs) (hle : ∀ r ∈ rs, 45 ≤ r.first.toNat)
    (h : listed rs = listed qs) : rs = qs := by
  induction rs generalizing qs with
  | nil =>
    cases qs with
    | nil => rfl
    | cons q qs => exact absurd h.symm (listed_ne_nil hqs)
  | cons r rs ih =>
    obtain ⟨hr, hle⟩ := List.forall_mem_cons.1 hle
    cases qs with
    | nil => exact absurd h (listed_ne_nil hrs)
    | cons q qs =>
      rcases head_cases hrs hqs h with ⟨rfl, hlisted⟩ | hmisread | hmisread
      · rw [ih hrs.tail hqs.tail hle hlisted]
      · have := (hmisread.lt_dash hrs).1
        omega
      · obtain ⟨hlt, heq⟩ := hmisread.lt_dash hqs
        rw [← heq] at hlt
        omega

/--
Two lists of ranges that are shown alike because a dash is read in two ways. A dash between two
symbols stands for itself in the first list and for all that lies between them in the second one; of
two dashes between two symbols, the first one stands for itself in the first list and the second one
in the second list.
-/
inductive Ambiguous : List SymbolRange → List SymbolRange → Prop where
  | inside {x y : Char} (hx : x.toNat < 45) (hy : 45 < y.toNat) (rs : List SymbolRange) :
      Ambiguous (compact [x, '-', y] ++ rs) (⟨x, y⟩ :: rs)
  | beside {x y : Char} (hx : x.toNat + 1 < 45) (hy : 46 < y.toNat) (rs : List SymbolRange) :
      Ambiguous (⟨x, x⟩ :: ⟨'-', y⟩ :: rs) (⟨x, '-'⟩ :: ⟨y, y⟩ :: rs)
  | cons (r : SymbolRange) {rs qs : List SymbolRange} (h : Ambiguous rs qs) :
      Ambiguous (r :: rs) (r :: qs)

theorem compact_dash (x y : Char) : compact [x, '-', y] =
    if x.toNat + 1 = 45 then
      if y.toNat = 46 then [⟨x, y⟩] else [⟨x, '-'⟩, ⟨y, y⟩]
    else if y.toNat = 46 then [⟨x, x⟩, ⟨'-', y⟩] else [⟨x, x⟩, ⟨'-', '-'⟩, ⟨y, y⟩] := by
  have hdash : '-'.toNat = 45 := rfl
  simp only [compact, List.foldr_cons, List.foldr_nil, consSymbol, singleton, hdash,
    eq_comm (a := 45 + 1)]
  by_cases hx : x.toNat + 1 = 45
  · by_cases hy : y.toNat = 46
    · simp [hx, hy, hdash]
    · simp [hx, hy, hdash]
  · by_cases hy : y.toNat = 46
    · simp [hx, hy, hdash]
    · simp [hx, hy, hdash]

theorem ambiguous_inside {ps : List SymbolRange} (hps : compact [x, '-', y] = ps)
    (hx : x.toNat < 45) (hy : 45 < y.toNat) (rs : List SymbolRange) :
    Ambiguous (ps ++ rs) (⟨x, y⟩ :: rs) := by
  rw [← hps]
  exact .inside hx hy rs

theorem Misread.ambiguous (h : Misread (r :: rs) (q :: qs)) (hrs : Spaced (r :: rs))
    (hqs : Spaced (q :: qs)) : Ambiguous (r :: rs) (q :: qs) := by
  have hdash : '-'.toNat = 45 := rfl
  cases h with
  | @single x y rs qs hlt hlisted =>
    obtain ⟨u, us, rfl, hu⟩ := exists_of_listed hrs.tail hlisted
    have hx := hrs.lt List.mem_cons_self
    have hle := hrs.tail.le
    have hus := hrs.tail.tail
    have hgap : ∀ v ∈ us, u.last.toNat + 1 < v.first.toNat := fun v => hrs.tail.lt
    rw [hu, hdash] at hx hle
    have hfar : ∀ v ∈ us, 45 ≤ v.first.toNat := by
      intro v hv
      have := hgap v hv
      omega
    have hshows := shows_shown hrs.tail.le
    rw [listed_cons] at hlisted
    -- the dash that is read as that of a range is the first symbol of `u`
    generalize u.shown = l at hlisted hshows
    dsimp only at hx
    cases hshows with
    | single z =>
      dsimp only at hu
      subst hu
      have htail : listed us = listed (⟨y, y⟩ :: qs) := by
        rw [listed_cons, shown_single]
        exact (List.cons.inj hlisted).2
      obtain rfl := eq_of_listed hus hqs.last hfar htail
      have hy := hgap _ List.mem_cons_self
      dsimp only at hy
      have hcompact := compact_dash x y
      rw [if_neg (by omega), if_neg (by omega)] at hcompact
      exact ambiguous_inside hcompact (by omega) (by omega) qs
    | @pair z w hw =>
      dsimp only at hu
      subst hu
      obtain ⟨rfl, htail⟩ := List.cons.inj (List.cons.inj hlisted).2
      obtain rfl := eq_of_listed hus hqs.tail hfar htail
      have hcompact := compact_dash x w
      rw [if_neg (by omega), if_pos (by omega)] at hcompact
      exact ambiguous_inside hcompact (by omega) (by omega) us
    | @dashed z w hw =>
      dsimp only at hu
      subst hu
      obtain ⟨rfl, hrest⟩ := List.cons.inj (List.cons.inj hlisted).2
      have htail : listed (⟨w, w⟩ :: us) = listed qs := by
        rw [listed_cons, shown_single]
        exact hrest
      have hwus : Spaced (⟨w, w⟩ :: us) := hrs.tail.last
      obtain rfl := eq_of_listed hwus hqs.tail
        (List.forall_mem_cons.2 ⟨by dsimp only; omega, hfar⟩) htail
      exact .beside (by omega) (by omega) us
  | @pair x y rs qs hx hlt hlisted =>
    have hgap : ∀ v ∈ rs, 46 < v.first.toNat := fun v => hrs.lt
    have hfar : ∀ v ∈ rs, 45 ≤ v.first.toNat := by
      intro v hv
      have := hgap v hv
      omega
    have htail : listed rs = listed (⟨y, y⟩ :: qs) := by
      rw [listed_cons, shown_single]
      exact hlisted
    obtain rfl := eq_of_listed hrs.tail hqs.last hfar htail
    have hy := hgap _ List.mem_cons_self
    dsimp only at hy
    have hcompact := compact_dash x y
    rw [if_pos hx, if_neg (by omega)] at hcompact
    exact ambiguous_inside hcompact (by omega) (by omega) qs

theorem eq_or_ambiguous (hrs : Spaced rs) (hqs : Spaced qs) (h : listed rs = listed qs) :
    rs = qs ∨ Ambiguous rs qs ∨ Ambiguous qs rs := by
  induction rs generalizing qs with
  | nil =>
    cases qs with
    | nil => exact Or.inl rfl
    | cons q qs => exact absurd h.symm (listed_ne_nil hqs)
  | cons r rs ih =>
    cases qs with
    | nil => exact absurd h (listed_ne_nil hrs)
    | cons q qs =>
      rcases head_cases hrs hqs h with ⟨rfl, hlisted⟩ | hmisread | hmisread
      · rcases ih hrs.tail hqs.tail hlisted with rfl | hleft | hright
        · exact Or.inl rfl
        · exact Or.inr (Or.inl (.cons r hleft))
        · exact Or.inr (Or.inr (.cons r hright))
      · exact Or.inr (Or.inl (hmisread.ambiguous hrs hqs))
      · exact Or.inr (Or.inr (hmisread.ambiguous hqs hrs))

theorem listed_compact_dash (x y : Char) : listed (compact [x, '-', y]) = [x, '-', y] := by
  have hdash : '-'.toNat = 45 := rfl
  rw [compact_dash]
  split
  next hnext =>
    split
    next hlast =>
      rw [listed_cons, shown_dashed (by omega)]
      rfl
    next hlast => simp [listed, shown, hnext]
  next hnext =>
    split
    next hlast => simp [listed, shown, hlast]
    next hlast => simp [listed, shown]

theorem Ambiguous.listed_eq (h : Ambiguous rs qs) : listed rs = listed qs := by
  induction h with
  | @inside x y hx hy rs =>
    rw [listed, List.flatMap_append, listed_cons, shown_dashed (by omega)]
    exact congrArg (· ++ listed rs) (listed_compact_dash x y)
  | @beside x y hx hy rs =>
    have hdash : '-'.toNat = 45 := rfl
    rw [listed_cons, listed_cons, listed_cons, listed_cons, shown_single, shown_single,
      shown_dashed (by omega), shown_dashed (by omega)]
    rfl
  | cons r _ ih => rw [listed_cons, listed_cons, ih]

theorem Ambiguous.le_length (h : Ambiguous rs qs) : 3 ≤ (listed qs).length := by
  induction h with
  | @inside x y hx hy rs =>
    rw [listed_cons, shown_dashed (by omega)]
    simp
  | @beside x y hx hy rs =>
    have hdash : '-'.toNat = 45 := rfl
    rw [listed_cons, shown_dashed (by omega)]
    simp
  | cons r _ ih =>
    rw [listed_cons, List.length_append]
    omega

theorem Ambiguous.dash (h : Ambiguous rs qs) :
    rs.any (fun r => r.contains '-') = true ∧ qs.any (fun r => r.contains '-') = true := by
  induction h with
  | @inside x y hx hy rs =>
    rw [List.any_append, List.any_cons, Bool.or_eq_true, Bool.or_eq_true]
    have hwhole : (⟨x, y⟩ : SymbolRange).contains '-' = true :=
      contains_iff.2 ⟨Nat.le_of_lt hx, Nat.le_of_lt hy⟩
    exact ⟨Or.inl (any_contains_compact.2 (by simp)), Or.inl hwhole⟩
  | @beside x y hx hy rs =>
    have hafter : (⟨'-', y⟩ : SymbolRange).contains '-' = true :=
      contains_iff.2 ⟨Nat.le_refl _, Nat.le_of_lt (Nat.lt_of_succ_lt hy)⟩
    have hbefore : (⟨x, '-'⟩ : SymbolRange).contains '-' = true :=
      contains_iff.2 ⟨Nat.le_of_lt (Nat.lt_of_succ_lt hx), Nat.le_refl _⟩
    simp [hafter, hbefore]
  | cons r _ ih =>
    rw [List.any_cons, List.any_cons, Bool.or_eq_true, Bool.or_eq_true]
    exact ⟨Or.inr ih.1, Or.inr ih.2⟩

theorem Shows.mem {l : List Char} (h : Shows r l) (hx : x ∈ l) :
    x = '-' ∨ r.contains x = true := by
  rw [contains_iff]
  cases h with
  | single =>
    rw [List.mem_singleton] at hx
    subst hx
    exact Or.inr ⟨Nat.le_refl _, Nat.le_refl _⟩
  | pair h =>
    simp only [List.mem_cons, List.not_mem_nil, or_false] at hx
    rcases hx with rfl | rfl
    · exact Or.inr ⟨Nat.le_refl _, by dsimp only; omega⟩
    · exact Or.inr ⟨by dsimp only; omega, Nat.le_refl _⟩
  | dashed h =>
    simp only [List.mem_cons, List.not_mem_nil, or_false] at hx
    rcases hx with rfl | rfl | rfl
    · exact Or.inr ⟨Nat.le_refl _, by dsimp only; omega⟩
    · exact Or.inl rfl
    · exact Or.inr ⟨by dsimp only; omega, Nat.le_refl _⟩

theorem mem_listed (hrs : Spaced rs) (hx : x ∈ listed rs) :
    x = '-' ∨ rs.any (fun r => r.contains x) = true := by
  obtain ⟨r, hr, hmem⟩ := List.mem_flatMap.1 hx
  refine ((shows_shown (hrs.ordered r hr)).mem hmem).imp_right fun hcontains => ?_
  exact List.any_eq_true.2 ⟨r, hr, hcontains⟩

end Reading

end SymbolRange

namespace SymbolSet

open SymbolRange

variable {s t : SymbolSet} {c : Char}

def shown (s : SymbolSet) : List Char :=
  match s.toList with
  | [c] => [c]
  | _ => '[' :: (listed s.ranges ++ [']'])

theorem toList_foldl_bracketText (rs : List SymbolRange) (acc : String) :
    (rs.foldl (fun acc r => acc ++ r.bracketText) acc).toList =
      acc.toList ++ written (listed rs) := by
  induction rs generalizing acc with
  | nil => simp [listed, written]
  | cons r rs ih =>
    rw [List.foldl_cons, ih, String.toList_append, toList_bracketText, listed_cons,
      written_append, List.append_assoc]

theorem toList_text (s : SymbolSet) : s.text.toList = written s.shown := by
  have hopening : (escape '[').toList = ['['] := by decide +kernel
  have hclosing : written [']'] = [']'] := by decide +kernel
  unfold text shown
  generalize s.toList = l
  match l with
  | [c] => simp [written]
  | [] | _ :: _ :: _ =>
    dsimp only
    rw [String.toList_append, toList_foldl_bracketText, written_cons, written_append, hopening,
      hclosing]
    rfl

theorem spaced_ranges (s : SymbolSet) : Spaced s.ranges := spaced_compact s.increasing

theorem any_contains_ranges : s.ranges.any (fun r => r.contains c) = true ↔ c ∈ s :=
  any_contains_compact.trans mem_toList

theorem ranges_inj (h : s.ranges = t.ranges) : s = t := by
  ext c
  rw [← any_contains_ranges, h, any_contains_ranges]

theorem shown_cases (s : SymbolSet) :
    (∃ c, s = singleton c ∧ s.shown = [c]) ∨
      s.size ≠ 1 ∧ s.shown = '[' :: (listed s.ranges ++ [']']) := by
  unfold shown
  split
  next c hc =>
    refine Or.inl ⟨c, ?_, rfl⟩
    ext d
    rw [← mem_toList, hc, List.mem_singleton, mem_singleton]
  next hne =>
    refine Or.inr ⟨fun hsize => ?_, rfl⟩
    obtain ⟨c, hc⟩ := List.length_eq_one_iff.1 (show s.toList.length = 1 from hsize)
    exact hne c hc

theorem listed_singleton (c : Char) : listed (singleton c).ranges = [c] := by
  simp [ranges, singleton, toList, compact, consSymbol, SymbolRange.singleton, listed, shown_single]

theorem eq_or_ambiguous_of_text (h : s.text = t.text) :
    s = t ∨ Ambiguous s.ranges t.ranges ∨ Ambiguous t.ranges s.ranges := by
  have hshown : s.shown = t.shown := by
    apply written_inj
    rw [← toList_text, ← toList_text, h]
  rcases shown_cases s with ⟨c, hs, hc⟩ | ⟨_, hs⟩
  · rcases shown_cases t with ⟨d, ht, hd⟩ | ⟨_, ht⟩
    · rw [hc, hd, List.singleton_inj] at hshown
      rw [hs, ht, hshown]
      exact Or.inl rfl
    · rw [hc, ht] at hshown
      simp at hshown
  · rcases shown_cases t with ⟨d, _, hd⟩ | ⟨_, ht⟩
    · rw [hs, hd] at hshown
      simp at hshown
    · rw [hs, ht] at hshown
      have hlisted := List.append_cancel_right (List.cons.inj hshown).2
      rcases eq_or_ambiguous s.spaced_ranges t.spaced_ranges hlisted with heq | hambiguous
      · exact Or.inl (ranges_inj heq)
      · exact Or.inr hambiguous

theorem text_of_ambiguous (h : Ambiguous s.ranges t.ranges) : s.text = t.text := by
  have hlisted := h.listed_eq
  have hlength := h.le_length
  rw [← String.toList_inj, toList_text, toList_text]
  congr 1
  rcases shown_cases s with ⟨c, rfl, _⟩ | ⟨_, hs⟩
  · rw [← hlisted, listed_singleton] at hlength
    contradiction
  · rcases shown_cases t with ⟨d, rfl, _⟩ | ⟨_, ht⟩
    · rw [listed_singleton] at hlength
      contradiction
    · rw [hs, ht, hlisted]

theorem eq_of_text (hs : '-' ∉ s) (h : s.text = t.text) : s = t := by
  rcases eq_or_ambiguous_of_text h with heq | hambiguous | hambiguous
  · exact heq
  · exact absurd (any_contains_ranges.1 hambiguous.dash.1) hs
  · exact absurd (any_contains_ranges.1 hambiguous.dash.2) hs

/--
Two different sets have the same text if and only if a dash in one of them can be taken for a dash
that was written for a range of the other one.
-/
theorem text_eq_iff (s t : SymbolSet) :
    s.text = t.text ↔ s = t ∨ Ambiguous s.ranges t.ranges ∨ Ambiguous t.ranges s.ranges := by
  constructor
  · exact eq_or_ambiguous_of_text
  · rintro (rfl | hambiguous | hambiguous)
    · rfl
    · exact text_of_ambiguous hambiguous
    · exact (text_of_ambiguous hambiguous).symm

theorem text_not_injective :
    ((ofList ['+', '-', '/']).text = (ofList ['+', ',', '-', '.', '/']).text ∧
      ofList ['+', '-', '/'] ≠ ofList ['+', ',', '-', '.', '/']) ∧
    (ofList ['+', '-', '.', '/']).text = (ofList ['+', ',', '-', '/']).text ∧
      ofList ['+', '-', '.', '/'] ≠ ofList ['+', ',', '-', '/'] := by
  decide +kernel

end SymbolSet

end Residual
