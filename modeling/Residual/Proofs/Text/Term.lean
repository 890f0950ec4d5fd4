import Residual.Proofs.NormalForm.Session
import Residual.Proofs.Replay
import Residual.Proofs.Subterms
import Residual.Proofs.Symbol.Text
import Residual.Term.Printer

/-!
This module contains the unique reading of terms. As long as the literals are free of the marks that
the operators are written with, what comes first in a text tells the term that it belongs to, and
where its text ends.
-/

namespace Residual

open Text

namespace Expr

def operands (t : TermId) : Expr → List TermId
  | union args | inter args => args
  | _ => [t]

def sign : Expr → Char
  | inter _ => '&'
  | _ => '+'

end Expr

namespace Store

variable {s : Store} {t u x y : TermId} {r r' l m : List Char}

section Layout

def inner (s : Store) (bare : Expr → Bool) (t : TermId) : List Char :=
  (parenthesize (bare (s.expr t)) (s.text t)).toList

theorem inner_of_bare {bare : Expr → Bool} (h : bare (s.expr t) = true) :
    s.inner bare t = (s.text t).toList := by
  rw [inner, parenthesize, if_pos h]

theorem inner_of_not_bare {bare : Expr → Bool} (h : bare (s.expr t) = false) :
    s.inner bare t = '(' :: ((s.text t).toList ++ [')']) := by
  rw [inner, parenthesize, h]
  simp

def further (s : Store) (mark : Char) (t : TermId) : List Char :=
  ' ' :: mark :: ' ' :: s.inner Expr.isOperand t

def chain (s : Store) (mark : Char) : List TermId → List Char
  | [] => []
  | a :: args => s.inner Expr.isOperand a ++ args.flatMap (s.further mark)

theorem chain_eq (mark : Char) (args : List TermId) :
    [' ', mark, ' '].intercalate (args.map (s.inner Expr.isOperand)) = s.chain mark args := by
  cases args with
  | nil => rfl
  | cons a args =>
    induction args generalizing a with
    | nil => simp [chain, List.intercalate]
    | cons b args ih =>
      rw [List.map_cons, List.map_cons, List.intercalate_cons_cons, ← List.map_cons, ih]
      simp [chain, further]

def bounds (min max : Nat) : List Char :=
  if min = max then Nat.toDigits 10 min else Nat.toDigits 10 min ++ ',' :: Nat.toDigits 10 max

def layout (s : Store) (t : TermId) : Expr → List Char
  | .emptySet => ['∅']
  | .emptyString => ['ε']
  | .literal set => written set.shown
  | .concat .. => (s.factors t).flatMap (s.inner Expr.isFactor)
  | .union args => s.chain '+' args
  | .inter args => s.chain '&' args
  | .negation arg => '¬' :: s.inner Expr.isAtomic arg
  | .star arg => s.inner Expr.isAtomic arg ++ ['*']
  | .repeated arg min max =>
    s.inner Expr.isAtomic arg ++ '\x7b' :: (bounds min max ++ ['\x7d'])

theorem toList_text (s : Store) (t : TermId) : (s.text t).toList = s.layout t (s.expr t) := by
  rw [text]
  split
  next he =>
    rw [he]
    rfl
  next he =>
    rw [he]
    rfl
  next set he =>
    rw [he]
    exact set.toList_text
  next left right he =>
    rw [String.toList_join, List.map_attach_eq_pmap, List.pmap_eq_map, List.flatMap_map, he,
      layout, factors_of_concat he]
    rfl
  next args he =>
    rw [String.toList_intercalate, List.map_attach_eq_pmap, List.pmap_eq_map, List.map_map, he]
    exact s.chain_eq '+' args
  next args he =>
    rw [String.toList_intercalate, List.map_attach_eq_pmap, List.pmap_eq_map, List.map_map, he]
    exact s.chain_eq '&' args
  next arg he =>
    dsimp only
    rw [String.toList_append, he]
    rfl
  next arg he =>
    dsimp only
    rw [String.toList_append, he]
    rfl
  next arg min max he =>
    dsimp only
    rw [he, layout, bounds]
    split <;> simp [inner, Nat.repr_eq_ofList_toDigits]

theorem Extends.text_eq {s' : Store} (h : s.Extends s') (ht : t < s.size) :
    s'.text t = s.text t := by
  induction t using Nat.strongRecOn with
  | ind t ih =>
    have hinner : ∀ bare u, u < t → s'.inner bare u = s.inner bare u := by
      intro bare u hu
      have hlt := Nat.lt_trans hu ht
      rw [inner, inner, h.expr_eq hlt, ih u hu hlt]
    have hchain : ∀ mark args, (∀ u ∈ args, u < t) → s'.chain mark args = s.chain mark args := by
      intro mark args hargs
      rw [← chain_eq, ← chain_eq, List.map_congr_left fun u hu => hinner _ u (hargs u hu)]
    have hchild : ∀ u ∈ (s.expr t).children, u < t := fun u => child_lt rfl
    rw [← String.toList_inj, toList_text, toList_text, h.expr_eq ht]
    cases he : s.expr t with
    | emptySet | emptyString | literal => rfl
    | concat left right =>
      rw [layout, layout, h.factors_eq ht, factors_of_concat he]
      exact List.flatMap_congr fun u hu => hinner _ u (lt_of_mem_factors_right he hu)
    | union args | inter args =>
      rw [he] at hchild
      exact hchain _ args hchild
    | negation arg | star arg | repeated arg =>
      rw [he] at hchild
      rw [layout, layout, hinner _ arg (hchild arg (List.mem_singleton_self arg))]

end Layout

section Plain

structure Plain (s : Store) (t : TermId) : Prop where
  lt_size : t < s.size
  alphanum : ∀ c, s.Mentions t c → c.isAlphanum = true

theorem Plain.child (h : s.Plain t) (hu : u ∈ (s.expr t).children) : s.Plain u where
  lt_size := lt_size_of_mem_children hu
  alphanum c hc := h.alphanum c (mentions_iff.2 (Or.inr ⟨u, hu, hc⟩))

theorem Plain.factor (h : s.Plain t) (hu : u ∈ s.factors t) : s.Plain u := by
  fun_induction factors s t with
  | case1 t left right he _ ih =>
    rcases List.mem_cons.1 hu with rfl | hu
    · exact h.child (by simp [he, Expr.children])
    · exact ih (h.child (by simp [he, Expr.children])) hu
  | case2 t _ =>
    rw [List.mem_singleton.1 hu]
    exact h

theorem Plain.operand (h : s.Plain t) (hu : u ∈ (s.expr t).operands t) : s.Plain u := by
  cases he : s.expr t with
  | union args | inter args =>
    rw [he] at hu
    exact h.child (by rwa [he])
  | _ =>
    rw [he] at hu
    rw [List.mem_singleton.1 hu]
    exact h

end Plain

section Atom

inductive Atom : Expr → List Char → Prop where
  | emptySet : Atom .emptySet ['∅']
  | emptyString : Atom .emptyString ['ε']
  | symbol {c : Char} (hc : c.isAlphanum = true) : Atom (.literal (.singleton c)) [c]
  | set {set : SymbolSet} (hset : ∀ c, c ∈ set → c.isAlphanum = true)
      (hshown : set.shown = '[' :: (SymbolRange.listed set.ranges ++ [']'])) :
      Atom (.literal set) ('[' :: (SymbolRange.listed set.ranges ++ [']']))

theorem Plain.atom (h : s.Plain t) (ha : (s.expr t).isAtomic = true) :
    ∃ l, Atom (s.expr t) l ∧ (s.text t).toList = written l := by
  rw [toList_text]
  cases he : s.expr t with
  | emptySet =>
    have hwritten : written ['∅'] = ['∅'] := by decide +kernel
    exact ⟨_, .emptySet, hwritten.symm⟩
  | emptyString =>
    have hwritten : written ['ε'] = ['ε'] := by decide +kernel
    exact ⟨_, .emptyString, hwritten.symm⟩
  | literal set =>
    have hset : ∀ c, c ∈ set → c.isAlphanum = true :=
      fun c hc => h.alphanum c (mentions_iff.2 (Or.inl ⟨set, he, hc⟩))
    refine ⟨set.shown, ?_, rfl⟩
    rcases set.shown_cases with ⟨c, rfl, hc⟩ | ⟨_, hshown⟩
    · rw [hc]
      exact .symbol (hset c (SymbolSet.mem_singleton.2 rfl))
    · rw [hshown]
      exact .set hset hshown
  | _ =>
    rw [he] at ha
    contradiction

theorem Atom.not_mem_listed {set : SymbolSet} (hset : ∀ c, c ∈ set → c.isAlphanum = true) :
    ']' ∉ '[' :: SymbolRange.listed set.ranges := by
  intro h
  rcases List.mem_cons.1 h with h | h
  · contradiction
  · rcases SymbolRange.mem_listed set.spaced_ranges h with h | h
    · contradiction
    · exact absurd (hset _ (SymbolSet.any_contains_ranges.1 h)) (by decide)

theorem written_head {c d : Char} (h : written (c :: l) ++ r = written (d :: m) ++ r') : c = d := by
  rw [written_cons, written_cons, List.append_assoc, List.append_assoc] at h
  exact (escape_cancel h).1

theorem Atom.cancel {d e : Expr} (hd : Atom d l) (he : Atom e m)
    (h : written l ++ r = written m ++ r') : d = e ∧ r = r' := by
  cases hd with
  | emptySet =>
    cases he with
    | emptySet => exact ⟨rfl, List.append_cancel_left h⟩
    | emptyString | set => exact absurd (written_head h) (by decide)
    | symbol hc =>
      obtain rfl := written_head h
      exact absurd hc (by decide)
  | emptyString =>
    cases he with
    | emptyString => exact ⟨rfl, List.append_cancel_left h⟩
    | emptySet | set => exact absurd (written_head h) (by decide)
    | symbol hc =>
      obtain rfl := written_head h
      exact absurd hc (by decide)
  | symbol hc =>
    cases he with
    | symbol =>
      obtain rfl := written_head h
      exact ⟨rfl, List.append_cancel_left h⟩
    | emptySet | emptyString | set =>
      obtain rfl := written_head h
      exact absurd hc (by decide)
  | set hset hshown =>
    cases he with
    | set hset' hshown' =>
      obtain ⟨hlisted, hr⟩ :=
        written_cancel (Atom.not_mem_listed hset) (Atom.not_mem_listed hset') h
      refine ⟨congrArg Expr.literal ?_, hr⟩
      apply SymbolSet.eq_of_text
      · exact fun hdash => absurd (hset _ hdash) (by decide)
      · rw [← String.toList_inj, SymbolSet.toList_text, SymbolSet.toList_text, hshown, hshown',
          (List.cons.inj hlisted).2]
    | emptySet | emptyString => exact absurd (written_head h) (by decide)
    | symbol hc =>
      obtain rfl := written_head h
      exact absurd hc (by decide)

theorem Atom.ne_parenthesis {e : Expr} (h : Atom e m) : '(' :: l ≠ written m ++ r := by
  intro heq
  have hopening : written ['('] = ['('] := by decide +kernel
  have heq : written ('(' :: []) ++ l = written m ++ r := by
    rw [hopening]
    exact heq
  cases h with
  | emptySet | emptyString | set => exact absurd (written_head heq) (by decide)
  | symbol hc =>
    obtain rfl := written_head heq
    exact absurd hc (by decide)

end Atom

section Following

def isOpening (x : Char) : Bool := x.isAlphanum || ['∅', 'ε', '[', '(', '\x5c'].contains x

def Clear (r : List Char) : Prop := ∀ x ∈ r.head?, x ≠ '*' ∧ x ≠ '\x7b'

def Stops (marks : List Char) (r : List Char) : Prop := ∀ x ∈ r.head?, x ∈ marks

theorem clear_of_isOpening {c : Char} (h : isOpening c = true) : Clear (c :: l) := by
  intro y hy
  obtain rfl := Option.some.inj hy
  constructor
  · rintro rfl
    exact absurd h (by decide)
  · rintro rfl
    exact absurd h (by decide)

theorem stops_cons {marks : List Char} {x : Char} (h : x ∈ marks) : Stops marks (x :: l) := by
  intro y hy
  rwa [← Option.some.inj hy]

theorem Stops.mono {marks marks' : List Char} (h : Stops marks r) (hsub : marks ⊆ marks') :
    Stops marks' r :=
  fun x hx => hsub (h x hx)

theorem Stops.clear (h : Stops [' ', ')'] r) : Clear r := by
  intro x hx
  have := h x hx
  simp only [List.mem_cons, List.not_mem_nil, or_false] at this
  rcases this with rfl | rfl
  · decide
  · decide

/--
The term `t` can be told from a text that begins with what is shown for it, as long as what follows
is fit to follow it.
-/
def Reads (s : Store) (shown : TermId → List Char) (follow : List Char → Prop) (t : TermId) :
    Prop :=
  ∀ ⦃u⦄, s.Plain u → ∀ ⦃r r'⦄, follow r → follow r' → shown t ++ r = shown u ++ r' → t = u ∧ r = r'

theorem flatMap_cancel {α : Type} {f g : α → List Char} {follow last : List Char → Prop}
    {l m : List α} (hlast : ∀ r, last r → follow r)
    (hf : ∀ a ∈ l, ∀ r, follow (f a ++ r) ∧ ¬last (f a ++ r))
    (hg : ∀ b ∈ m, ∀ r, follow (g b ++ r) ∧ ¬last (g b ++ r))
    (hcancel : ∀ a ∈ l, ∀ b ∈ m, ∀ r r', follow r → follow r' → f a ++ r = g b ++ r' →
      a = b ∧ r = r')
    (hr : last r) (hr' : last r') (h : l.flatMap f ++ r = m.flatMap g ++ r') : l = m ∧ r = r' := by
  have hfollow : ∀ {k : α → List Char} {n : List α} {r : List Char},
      (∀ a ∈ n, ∀ r, follow (k a ++ r) ∧ ¬last (k a ++ r)) → last r →
      follow (n.flatMap k ++ r) := by
    intro k n r hk hr
    cases n with
    | nil => exact hlast r hr
    | cons a n =>
      rw [List.flatMap_cons, List.append_assoc]
      exact (hk a List.mem_cons_self _).1
  -- a list that ends first is followed by what cannot begin an element of the other one
  induction l generalizing m with
  | nil =>
    cases m with
    | nil => exact ⟨rfl, h⟩
    | cons b m =>
      rw [List.flatMap_nil, List.nil_append, List.flatMap_cons, List.append_assoc] at h
      rw [h] at hr
      exact absurd hr (hg b List.mem_cons_self _).2
  | cons a l ih =>
    rw [List.flatMap_cons, List.append_assoc] at h
    cases m with
    | nil =>
      rw [List.flatMap_nil, List.nil_append] at h
      rw [← h] at hr'
      exact absurd hr' (hf a List.mem_cons_self _).2
    | cons b m =>
      rw [List.flatMap_cons, List.append_assoc] at h
      have hf' := (List.forall_mem_cons.1 hf).2
      have hg' := (List.forall_mem_cons.1 hg).2
      obtain ⟨rfl, hrest⟩ := hcancel a List.mem_cons_self b List.mem_cons_self _ _
        (hfollow hf' hr) (hfollow hg' hr') h
      obtain ⟨rfl, hr⟩ := ih hf' hg'
        (fun a ha b hb => hcancel a (List.mem_cons_of_mem _ ha) b (List.mem_cons_of_mem _ hb)) hrest
      exact ⟨rfl, hr⟩

end Following

section Factor

theorem bounds_cancel {min max min' max' : Nat}
    (h : bounds min max ++ '\x7d' :: r = bounds min' max' ++ '\x7d' :: r') :
    min = min' ∧ max = max' ∧ r = r' := by
  have hmark : ∀ x, x ∉ hexDigits → ∀ n, x ∉ Nat.toDigits 10 n := by
    intro x hx n hmem
    exact hx (toDigits_subset (by decide) (by decide) x hmem)
  have hcomma := hmark ',' (by decide)
  have hclosing := hmark '\x7d' (by decide)
  have hinj : ∀ {m n}, Nat.toDigits 10 m = Nat.toDigits 10 n → m = n :=
    fun h => toDigits_inj (by decide) (by decide) h
  unfold bounds at h
  split at h
  next heq =>
    split at h
    next heq' =>
      obtain ⟨hdigits, _, hr⟩ := append_cons_cancel (hclosing _) (hclosing _) h
      obtain rfl := hinj hdigits
      exact ⟨rfl, heq.symm.trans heq', hr⟩
    next hne' =>
      rw [List.append_assoc] at h
      exact absurd (append_cons_cancel (hcomma _) (hclosing _) h).2.1 (by decide)
  next hne =>
    rw [List.append_assoc] at h
    split at h
    next heq' => exact absurd (append_cons_cancel (hclosing _) (hcomma _) h).2.1 (by decide)
    next hne' =>
      rw [List.append_assoc] at h
      obtain ⟨hmin, _, h⟩ := append_cons_cancel (hcomma _) (hcomma _) h
      obtain ⟨hmax, _, hr⟩ := append_cons_cancel (hclosing _) (hclosing _) h
      exact ⟨hinj hmin, hinj hmax, hr⟩

inductive Suffix (s : Store) (x t : TermId) : List Char → Prop where
  | none (h : x = t) (hkind : (s.expr t).isFactor = (s.expr t).isAtomic) : Suffix s x t []
  | star (h : s.expr t = .star x) : Suffix s x t ['*']
  | repeated {min max : Nat} (h : s.expr t = .repeated x min max) :
    Suffix s x t ('\x7b' :: (bounds min max ++ ['\x7d']))

theorem exists_suffix (s : Store) (t : TermId) :
    ∃ x l, s.Suffix x t l ∧ s.inner Expr.isFactor t = s.inner Expr.isAtomic x ++ l := by
  have hnone : (s.expr t).isFactor = (s.expr t).isAtomic →
      ∃ x l, s.Suffix x t l ∧ s.inner Expr.isFactor t = s.inner Expr.isAtomic x ++ l := by
    intro hkind
    refine ⟨t, [], .none rfl hkind, ?_⟩
    rw [inner, inner, hkind, List.append_nil]
  cases he : s.expr t with
  | star arg =>
    refine ⟨arg, _, .star he, ?_⟩
    rw [inner_of_bare (by rw [he]; rfl), toList_text, he, layout]
  | repeated arg min max =>
    refine ⟨arg, _, .repeated he, ?_⟩
    rw [inner_of_bare (by rw [he]; rfl), toList_text, he, layout]
  | _ => exact hnone (by rw [he]; rfl)

theorem Suffix.plain (h : s.Suffix x t l) (ht : s.Plain t) : s.Plain x := by
  cases h with
  | none h =>
    rw [h]
    exact ht
  | star h | repeated h => exact ht.child (by simp [h, Expr.children])

theorem Suffix.cancel (ht : s.Suffix x t l) (hu : s.Suffix x u m) (hlt : t < s.size)
    (hlu : u < s.size) (hr : Clear r) (hr' : Clear r') (h : l ++ r = m ++ r') : t = u ∧ r = r' := by
  cases ht with
  | none ht =>
    cases hu with
    | none hu => exact ⟨ht.symm.trans hu, h⟩
    | star | repeated =>
      have := hr _ (by rw [List.nil_append] at h; rw [h]; rfl)
      simp at this
  | star ht =>
    cases hu with
    | none =>
      have := hr' _ (by rw [List.nil_append] at h; rw [← h]; rfl)
      simp at this
    | star hu => exact ⟨(expr_inj hlt hlu).1 (ht.trans hu.symm), (List.cons.inj h).2⟩
    | repeated => exact absurd (List.cons.inj h).1 (by decide)
  | repeated ht =>
    cases hu with
    | none =>
      have := hr' _ (by rw [List.nil_append] at h; rw [← h]; rfl)
      simp at this
    | star => exact absurd (List.cons.inj h).1 (by decide)
    | repeated hu =>
      rw [List.cons_append, List.cons_append, List.append_assoc, List.append_assoc] at h
      obtain ⟨hmin, hmax, hr⟩ := bounds_cancel (List.cons.inj h).2
      refine ⟨(expr_inj hlt hlu).1 ?_, hr⟩
      rw [ht, hu, hmin, hmax]

theorem reads_inner (ht : s.Plain t)
    (h : (s.expr t).isAtomic = false → s.Reads (fun t => (s.text t).toList) (Stops [')']) t) :
    s.Reads (s.inner Expr.isAtomic) (fun _ => True) t := by
  intro u hu r r' _ _ heq
  cases hta : (s.expr t).isAtomic with
  | false =>
    rw [inner_of_not_bare hta] at heq
    cases hua : (s.expr u).isAtomic with
    | false =>
      rw [inner_of_not_bare hua, List.cons_append, List.cons_append, List.append_assoc,
        List.append_assoc] at heq
      obtain ⟨htu, hr⟩ := h hta hu (stops_cons List.mem_cons_self) (stops_cons List.mem_cons_self)
        (List.cons.inj heq).2
      exact ⟨htu, (List.cons.inj hr).2⟩
    | true =>
      obtain ⟨m, hm, htext⟩ := hu.atom hua
      rw [inner_of_bare hua, htext] at heq
      exact absurd heq hm.ne_parenthesis
  | true =>
    obtain ⟨l, hl, htext⟩ := ht.atom hta
    rw [inner_of_bare hta, htext] at heq
    cases hua : (s.expr u).isAtomic with
    | false =>
      rw [inner_of_not_bare hua] at heq
      exact absurd heq.symm hl.ne_parenthesis
    | true =>
      obtain ⟨m, hm, htext'⟩ := hu.atom hua
      rw [inner_of_bare hua, htext'] at heq
      obtain ⟨he, hr⟩ := hl.cancel hm heq
      exact ⟨(expr_inj ht.lt_size hu.lt_size).1 he, hr⟩

theorem reads_factor (ht : s.Plain t)
    (h : ∀ x l, s.Suffix x t l → s.Reads (s.inner Expr.isAtomic) (fun _ => True) x) :
    s.Reads (s.inner Expr.isFactor) Clear t := by
  intro u hu r r' hr hr' heq
  obtain ⟨x, l, hx, htext⟩ := s.exists_suffix t
  obtain ⟨y, m, hy, htext'⟩ := s.exists_suffix u
  rw [htext, htext', List.append_assoc, List.append_assoc] at heq
  obtain ⟨rfl, hrest⟩ := h x l hx (hy.plain hu) trivial trivial heq
  exact hx.cancel hy ht.lt_size hu.lt_size hr hr' hrest

theorem exists_head_factor (ht : s.Plain t) :
    ∃ x l, s.inner Expr.isFactor t = x :: l ∧ isOpening x = true := by
  obtain ⟨x, suffix, hx, htext⟩ := s.exists_suffix t
  rw [htext]
  cases ha : (s.expr x).isAtomic with
  | false =>
    rw [inner_of_not_bare ha]
    exact ⟨_, _, rfl, by decide⟩
  | true =>
    obtain ⟨l, hl, hwritten⟩ := (hx.plain ht).atom ha
    rw [inner_of_bare ha, hwritten]
    have hhead : ∃ y l', l = y :: l' ∧ isOpening y = true := by
      generalize s.expr x = e at hl
      cases hl with
      | emptySet | emptyString | set => exact ⟨_, _, rfl, by decide⟩
      | symbol hc => exact ⟨_, _, rfl, by rw [isOpening, hc, Bool.true_or]⟩
    obtain ⟨y, l', rfl, hy⟩ := hhead
    obtain ⟨z, k, hz, hzy⟩ := exists_head_escape y
    rw [written_cons, hz]
    refine ⟨_, _, rfl, ?_⟩
    rcases hzy with rfl | rfl
    · exact hy
    · decide

theorem factor_follows (ht : s.Plain t) (r : List Char) :
    Clear (s.inner Expr.isFactor t ++ r) ∧ ¬Stops [' ', ')'] (s.inner Expr.isFactor t ++ r) := by
  obtain ⟨x, l, hxl, hx⟩ := exists_head_factor ht
  rw [hxl]
  refine ⟨clear_of_isOpening hx, fun hstops => ?_⟩
  have hmem := hstops x rfl
  simp only [List.mem_cons, List.not_mem_nil, or_false] at hmem
  rcases hmem with rfl | rfl
  · exact absurd hx (by decide)
  · exact absurd hx (by decide)

end Factor

section Operand

theorem factors_ne_nil (s : Store) (t : TermId) : s.factors t ≠ [] := by
  rw [factors]
  split
  · exact List.cons_ne_nil _ _
  · exact List.cons_ne_nil _ _

theorem factors_cases (s : Store) (t : TermId) :
    (∃ left right, s.expr t = .concat left right ∧ s.factors t = left :: s.factors right) ∨
      (∀ left right, s.expr t ≠ .concat left right) ∧ s.factors t = [t] := by
  by_cases h : ∃ left right, s.expr t = .concat left right
  · obtain ⟨left, right, he⟩ := h
    exact Or.inl ⟨left, right, he, factors_of_concat he⟩
  · have hne : ∀ left right, s.expr t ≠ .concat left right := fun x y he => h ⟨x, y, he⟩
    exact Or.inr ⟨hne, factors_of_ne hne⟩

theorem factors_inj (ht : t < s.size) (hu : u < s.size) (h : s.factors t = s.factors u) :
    t = u := by
  induction t using Nat.strongRecOn generalizing u with
  | ind t ih =>
    rcases s.factors_cases t with ⟨left, right, he, hfactors⟩ | ⟨_, hfactors⟩
    · rw [hfactors] at h
      have hright : right ∈ (s.expr t).children := by simp [he, Expr.children]
      rcases s.factors_cases u with ⟨left', right', he', hfactors'⟩ | ⟨_, hfactors'⟩
      · have hright' : right' ∈ (s.expr u).children := by simp [he', Expr.children]
        rw [hfactors'] at h
        obtain ⟨rfl, hrest⟩ := List.cons.inj h
        obtain rfl := ih right (child_lt rfl hright) (lt_size_of_mem_children hright)
          (lt_size_of_mem_children hright') hrest
        exact (expr_inj ht hu).1 (he.trans he'.symm)
      · rw [hfactors'] at h
        exact absurd (List.cons.inj h).2 (s.factors_ne_nil right)
    · rw [hfactors] at h
      rcases s.factors_cases u with ⟨left', right', _, hfactors'⟩ | ⟨_, hfactors'⟩
      · rw [hfactors'] at h
        exact absurd (List.cons.inj h).2.symm (s.factors_ne_nil right')
      · rw [hfactors'] at h
        exact List.singleton_inj.1 h

theorem operand_cases (s : Store) (t : TermId) :
    (∃ arg, s.expr t = .negation arg ∧
        s.inner Expr.isOperand t = '¬' :: s.inner Expr.isAtomic arg) ∨
      (∀ arg, s.expr t ≠ .negation arg) ∧
        s.inner Expr.isOperand t = (s.factors t).flatMap (s.inner Expr.isFactor) := by
  have hfactor : (s.expr t).isOperand = (s.expr t).isFactor →
      (∀ left right, s.expr t ≠ .concat left right) →
      s.inner Expr.isOperand t = (s.factors t).flatMap (s.inner Expr.isFactor) := by
    intro hkind hne
    rw [factors_of_ne hne, List.flatMap_singleton, inner, inner, hkind]
  cases he : s.expr t with
  | negation arg =>
    refine Or.inl ⟨arg, rfl, ?_⟩
    rw [inner_of_bare (by rw [he]; rfl), toList_text, he, layout]
  | concat left right =>
    refine Or.inr ⟨fun _ => Expr.noConfusion, ?_⟩
    rw [inner_of_bare (by rw [he]; rfl), toList_text, he, layout]
  | _ =>
    refine Or.inr ⟨fun _ => Expr.noConfusion, hfactor (by rw [he]; rfl) ?_⟩
    intro left right hconcat
    rw [he] at hconcat
    contradiction

theorem negation_ne_factors (ht : s.Plain t) :
    '¬' :: l ≠ (s.factors t).flatMap (s.inner Expr.isFactor) ++ r := by
  intro heq
  obtain ⟨u, us, hus⟩ := List.exists_cons_of_ne_nil (s.factors_ne_nil t)
  have hu : u ∈ s.factors t := by
    rw [hus]
    exact List.mem_cons_self
  obtain ⟨x, m, hxm, hx⟩ := exists_head_factor (ht.factor hu)
  rw [hus, List.flatMap_cons, hxm] at heq
  obtain rfl := (List.cons.inj heq).1
  exact absurd hx (by decide)

theorem reads_operand (ht : s.Plain t)
    (hnegation : ∀ arg, s.expr t = .negation arg →
      s.Reads (s.inner Expr.isAtomic) (fun _ => True) arg)
    (hfactors : (∀ arg, s.expr t ≠ .negation arg) →
      ∀ v ∈ s.factors t, s.Reads (s.inner Expr.isFactor) Clear v) :
    s.Reads (s.inner Expr.isOperand) (Stops [' ', ')']) t := by
  intro u hu r r' hr hr' heq
  rcases s.operand_cases t with ⟨arg, he, htext⟩ | ⟨hne, htext⟩
  · rcases s.operand_cases u with ⟨arg', he', htext'⟩ | ⟨_, htext'⟩
    · rw [htext, htext'] at heq
      obtain ⟨rfl, hrest⟩ := hnegation arg he (hu.child (by simp [he', Expr.children])) trivial
        trivial (List.cons.inj heq).2
      exact ⟨(expr_inj ht.lt_size hu.lt_size).1 (he.trans he'.symm), hrest⟩
    · rw [htext, htext'] at heq
      exact absurd heq (negation_ne_factors hu)
  · rcases s.operand_cases u with ⟨arg', _, htext'⟩ | ⟨_, htext'⟩
    · rw [htext, htext'] at heq
      exact absurd heq.symm (negation_ne_factors ht)
    · rw [htext, htext'] at heq
      obtain ⟨hsame, hrest⟩ := flatMap_cancel (fun _ => Stops.clear)
        (fun v hv => factor_follows (ht.factor hv)) (fun v hv => factor_follows (hu.factor hv))
        (fun v hv w hw _ _ hr hr' h => hfactors hne v hv (hu.factor hw) hr hr' h) hr hr' heq
      exact ⟨factors_inj ht.lt_size hu.lt_size hsame, hrest⟩

end Operand

section Text

theorem operands_of_isOperand {e : Expr} (h : e.isOperand = true) : e.operands t = [t] := by
  cases e with
  | union | inter => contradiction
  | _ => rfl

theorem two_le_length_operands (hs : s.Normal) (h : (s.expr t).isOperand = false) :
    2 ≤ ((s.expr t).operands t).length := by
  have hnormal := hs t
  cases he : s.expr t with
  | union args | inter args =>
    rw [he] at hnormal
    exact hnormal.1.two_le_length
  | _ =>
    rw [he] at h
    contradiction

theorem toList_text_chain (s : Store) (t : TermId) :
    (s.text t).toList = s.chain (s.expr t).sign ((s.expr t).operands t) := by
  cases h : (s.expr t).isOperand with
  | true =>
    rw [operands_of_isOperand h, chain, List.flatMap_nil, List.append_nil, inner_of_bare h]
  | false =>
    rw [toList_text]
    cases he : s.expr t with
    | union | inter => rfl
    | _ =>
      rw [he] at h
      contradiction

theorem operands_ne_nil (hs : s.Normal) (t : TermId) : (s.expr t).operands t ≠ [] := by
  cases h : (s.expr t).isOperand with
  | true =>
    rw [operands_of_isOperand h]
    exact List.cons_ne_nil _ _
  | false =>
    intro hnil
    have := two_le_length_operands hs h
    rw [hnil] at this
    contradiction

theorem eq_of_operands {d e : Expr} (hd : d.isOperand = false) (he : e.isOperand = false)
    (h : d.operands t = e.operands u) (hsign : d.sign = e.sign) : d = e := by
  have hmarks : '+' ≠ '&' := by decide
  cases d with
  | union args =>
    cases e with
    | union args' => exact congrArg Expr.union h
    | inter args' => exact absurd hsign hmarks
    | _ => contradiction
  | inter args =>
    cases e with
    | inter args' => exact congrArg Expr.inter h
    | union args' => exact absurd hsign.symm hmarks
    | _ => contradiction
  | _ => contradiction

theorem operands_inj (hs : s.Normal) (ht : t < s.size) (hu : u < s.size)
    (h : (s.expr t).operands t = (s.expr u).operands u)
    (hsign : 2 ≤ ((s.expr t).operands t).length → (s.expr t).sign = (s.expr u).sign) : t = u := by
  cases hto : (s.expr t).isOperand with
  | true =>
    rw [operands_of_isOperand hto] at h
    cases huo : (s.expr u).isOperand with
    | true =>
      rw [operands_of_isOperand huo] at h
      exact List.singleton_inj.1 h
    | false =>
      have := two_le_length_operands hs huo
      rw [← h] at this
      contradiction
  | false =>
    have hlength := two_le_length_operands hs hto
    cases huo : (s.expr u).isOperand with
    | true =>
      rw [h, operands_of_isOperand huo] at hlength
      contradiction
    | false => exact (expr_inj ht hu).1 (eq_of_operands hto huo h (hsign hlength))

theorem further_follows (mark : Char) (t : TermId) (r : List Char) :
    Stops [' ', ')'] (s.further mark t ++ r) ∧ ¬Stops [')'] (s.further mark t ++ r) := by
  refine ⟨stops_cons List.mem_cons_self, fun hstops => ?_⟩
  exact absurd (hstops ' ' rfl) (by decide)

theorem further_cancel {mark mark' : Char}
    (ht : s.Reads (s.inner Expr.isOperand) (Stops [' ', ')']) t) (hu : s.Plain u)
    (hr : Stops [' ', ')'] r) (hr' : Stops [' ', ')'] r')
    (h : s.further mark t ++ r = s.further mark' u ++ r') : t = u ∧ r = r' :=
  ht hu hr hr' (List.cons.inj (List.cons.inj (List.cons.inj h).2).2).2

theorem chain_cancel {args args' : List TermId} {mark mark' : Char} (hargs : args ≠ [])
    (hargs' : args' ≠ [])
    (hreads : ∀ v ∈ args, s.Reads (s.inner Expr.isOperand) (Stops [' ', ')']) v)
    (hplain : ∀ v ∈ args', s.Plain v) (hr : Stops [')'] r) (hr' : Stops [')'] r')
    (h : s.chain mark args ++ r = s.chain mark' args' ++ r') :
    args = args' ∧ (2 ≤ args.length → mark = mark') ∧ r = r' := by
  have hlast : ∀ r, Stops [')'] r → Stops [' ', ')'] r :=
    fun r hr => hr.mono (List.subset_cons_self _ _)
  have hfollow : ∀ (mark : Char) (args : List TermId) {r : List Char}, Stops [')'] r →
      Stops [' ', ')'] (args.flatMap (s.further mark) ++ r) := by
    intro mark args r hr
    cases args with
    | nil => exact hlast r hr
    | cons a args =>
      rw [List.flatMap_cons, List.append_assoc]
      exact (further_follows mark a _).1
  obtain ⟨a, args, rfl⟩ := List.exists_cons_of_ne_nil hargs
  obtain ⟨b, args', rfl⟩ := List.exists_cons_of_ne_nil hargs'
  obtain ⟨ha, htail⟩ := List.forall_mem_cons.1 hreads
  obtain ⟨hb, htail'⟩ := List.forall_mem_cons.1 hplain
  rw [chain, chain, List.append_assoc, List.append_assoc] at h
  obtain ⟨hab, hrest⟩ := ha hb (hfollow mark args hr) (hfollow mark' args' hr') h
  obtain ⟨rfl, hr⟩ := flatMap_cancel hlast (fun v _ => further_follows mark v)
    (fun v _ => further_follows mark' v)
    (fun v hv w hw _ _ hr hr' h => further_cancel (htail v hv) (htail' w hw) hr hr' h)
    hr hr' hrest
  refine ⟨by rw [hab], fun hlength => ?_, hr⟩
  -- the mark is there as soon as there are two operands
  cases args with
  | nil => contradiction
  | cons c args => exact (List.cons.inj (List.cons.inj hrest).2).1

theorem reads_text_of_operands (hs : s.Normal) (ht : s.Plain t)
    (h : ∀ v ∈ (s.expr t).operands t, s.Reads (s.inner Expr.isOperand) (Stops [' ', ')']) v) :
    s.Reads (fun t => (s.text t).toList) (Stops [')']) t := by
  intro u hu r r' hr hr' heq
  dsimp only at heq
  rw [toList_text_chain, toList_text_chain] at heq
  obtain ⟨hoperands, hsign, hrest⟩ := chain_cancel (operands_ne_nil hs t) (operands_ne_nil hs u) h
    (fun v hv => hu.operand hv) hr hr' heq
  exact ⟨operands_inj hs ht.lt_size hu.lt_size hoperands hsign, hrest⟩

theorem isAtomic_of_isOperand {e : Expr} (h : e.isOperand = true)
    (hconcat : ∀ left right, e ≠ .concat left right) (hnegation : ∀ arg, e ≠ .negation arg)
    (hkind : e.isFactor = e.isAtomic) : e.isAtomic = true := by
  cases e with
  | emptySet | emptyString | literal => rfl
  | concat left right => exact absurd rfl (hconcat left right)
  | negation arg => exact absurd rfl (hnegation arg)
  | union | inter | star | repeated => contradiction

theorem lt_or_eq_of_mem_operands (h : u ∈ (s.expr t).operands t) :
    u < t ∨ u = t ∧ (s.expr t).isOperand = true := by
  cases ho : (s.expr t).isOperand with
  | true =>
    rw [operands_of_isOperand ho] at h
    exact Or.inr ⟨List.mem_singleton.1 h, rfl⟩
  | false =>
    left
    cases he : s.expr t with
    | union args | inter args =>
      rw [he] at h
      exact child_lt he h
    | _ =>
      rw [he] at ho
      contradiction

theorem Suffix.lt_or_isAtomic {v : TermId} (hv : v < t ∨ v = t ∧ (s.expr t).isOperand = true)
    (hnegation : ∀ arg, s.expr v ≠ .negation arg) (hu : u ∈ s.factors v) (hx : s.Suffix x u l) :
    x < t ∨ (s.expr x).isAtomic = true := by
  have hut : u < t ∨ u = t ∧ ((s.expr u).isFactor = (s.expr u).isAtomic →
      (s.expr u).isAtomic = true) := by
    rcases hv with hlt | ⟨rfl, ho⟩
    · exact Or.inl (Nat.lt_of_le_of_lt (le_of_mem_factors hu) hlt)
    · rcases s.factors_cases v with ⟨left, right, he, hfactors⟩ | ⟨hne, hfactors⟩
      · rw [hfactors] at hu
        exact Or.inl (lt_of_mem_factors_right he hu)
      · rw [hfactors, List.mem_singleton] at hu
        rw [hu]
        exact Or.inr ⟨rfl, isAtomic_of_isOperand ho hne hnegation⟩
  cases hx with
  | none h hkind =>
    rw [h]
    exact hut.imp_right fun h => h.2 hkind
  | star he | repeated he =>
    have hlt : x < u := child_lt he (List.mem_singleton_self x)
    rcases hut with hut | ⟨rfl, _⟩
    · exact Or.inl (Nat.lt_trans hlt hut)
    · exact Or.inl hlt

theorem reads_text (hs : s.Normal) (ht : s.Plain t) :
    s.Reads (fun t => (s.text t).toList) (Stops [')']) t := by
  induction t using Nat.strongRecOn with
  | ind t ih =>
    have hinner : ∀ v, s.Plain v → (v < t ∨ (s.expr v).isAtomic = true) →
        s.Reads (s.inner Expr.isAtomic) (fun _ => True) v := by
      intro v hv hlt
      apply reads_inner hv
      intro hatomic
      exact ih v (hlt.resolve_right (Bool.eq_false_iff.1 hatomic)) hv
    apply reads_text_of_operands hs ht
    intro v hv
    have hplain := ht.operand hv
    have hle := lt_or_eq_of_mem_operands hv
    apply reads_operand hplain
    · intro arg he
      have hlt : arg < v := child_lt he (List.mem_singleton_self arg)
      apply hinner arg (hplain.child (by simp [he, Expr.children]))
      rcases hle with hle | ⟨rfl, _⟩
      · exact Or.inl (Nat.lt_trans hlt hle)
      · exact Or.inl hlt
    · intro hnegation u hu
      have hfactor := hplain.factor hu
      exact reads_factor hfactor fun x l hx =>
        hinner x (hx.plain hfactor) (hx.lt_or_isAtomic hle hnegation hu)

end Text

end Store

namespace Workspace

variable {w : Workspace} {t u : TermId}

/-- Terms with literals of letters and digits only are known from their texts. -/
theorem Reachable.text_inj (hw : w.Reachable) (ht : t < w.numTerms) (hu : u < w.numTerms)
    (hts : ∀ c, w.store.Mentions t c → c.isAlphanum = true)
    (hus : ∀ c, w.store.Mentions u c → c.isAlphanum = true)
    (h : w.store.text t = w.store.text u) : t = u := by
  have hnil : Store.Stops [')'] [] := by simp [Store.Stops]
  have hread := Store.reads_text (invariant_normal.holds hw).store ⟨ht, hts⟩
  exact (hread ⟨hu, hus⟩ hnil hnil (congrArg (·.toList ++ []) h)).1

def layered : Workspace :=
  ((((((((initial 10).perform (.build (.symbol 'a'))).perform (.build (.oneOf ['b', 'c']))).perform
    (.build (.concat 3 4))).perform (.build (.star 5))).perform (.build (.negation 3))).perform
    (.build (.union 7 6))).perform (.build (.star 4))).perform (.build (.concat 3 9))

theorem reachable_layered : layered.Reachable := by
  have hset := (reachable_symbol 10 'a').perform (.build (.oneOf ['b', 'c'])) (by decide +kernel)
  have hconcat := hset.perform (.build (.concat 3 4)) (by decide +kernel)
  have hstar := hconcat.perform (.build (.star 5)) (by decide +kernel)
  have hnegation := hstar.perform (.build (.negation 3)) (by decide +kernel)
  have hunion := hnegation.perform (.build (.union 7 6)) (by decide +kernel)
  have hstar' := hunion.perform (.build (.star 4)) (by decide +kernel)
  exact hstar'.perform (.build (.concat 3 9)) (by decide +kernel)

theorem isAlphanum_of_mentions_layered (ht : layered.store.symbolsOf t = .ofList ['a', 'b', 'c']) :
    ∀ c, layered.store.Mentions t c → c.isAlphanum = true := by
  intro c hc
  rw [← Store.mem_symbolsOf_iff, ht, SymbolSet.mem_ofList] at hc
  simp only [List.mem_cons, List.not_mem_nil, or_false] at hc
  rcases hc with rfl | rfl | rfl
  · decide
  · decide
  · decide

theorem text_inj_layered :
    layered.Reachable ∧ layered.numTerms = 11 ∧
      (∀ t ∈ [6, 8, 10], ∀ c, layered.store.Mentions t c → c.isAlphanum = true) ∧
      layered.store.text 8 = "(a[bc])* + ¬a" ∧
      (layered.store.text 8 = layered.store.text 8 ∧ 8 = 8) ∧
      layered.store.text 6 ≠ layered.store.text 10 := by
  have hnum : layered.numTerms = 11 := by decide +kernel
  have hlt : ∀ t ∈ [6, 8, 10], t < layered.numTerms := by
    rw [hnum]
    decide
  have hletters : ∀ t ∈ [6, 8, 10], ∀ c, layered.store.Mentions t c → c.isAlphanum = true := by
    have hsymbols : ∀ t ∈ [6, 8, 10], layered.store.symbolsOf t = .ofList ['a', 'b', 'c'] := by
      decide +kernel
    exact fun t ht => isAlphanum_of_mentions_layered (hsymbols t ht)
  have htext : layered.store.text 8 = "(a[bc])* + ¬a" := by decide +kernel
  have hinj := fun t u (ht : t ∈ [6, 8, 10]) (hu : u ∈ [6, 8, 10]) =>
    reachable_layered.text_inj (hlt t ht) (hlt u hu) (hletters t ht) (hletters u hu)
  refine ⟨reachable_layered, hnum, hletters, htext, ⟨rfl, ?_⟩, fun h => ?_⟩
  · exact hinj 8 8 (by decide) (by decide) rfl
  · exact absurd (hinj 6 10 (by decide) (by decide) h) (by decide)

end Workspace

end Residual
