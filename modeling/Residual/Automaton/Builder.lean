import Residual.Automaton.Basic
import Residual.Numbering

/-!
This module contains the construction of automata transition by transition. States are named by
keys and numbered in the order in which their keys are first mentioned.
-/

namespace Residual

open Std

structure Draft where
  accepting : Bool
  next : Array (Option StateId)

namespace Draft

def blank (width : Nat) : Draft := ⟨false, Array.replicate width none⟩

def isComplete (d : Draft) : Bool := d.next.all Option.isSome

def toState (d : Draft) : State := ⟨d.accepting, none⟩

def targets (d : Draft) : Array StateId := d.next.map fun target => target.getD Automaton.initial

structure Fits (d : Draft) (width bound : Nat) : Prop where
  size_next : d.next.size = width
  next_lt : ∀ s, some s ∈ d.next → s < bound

theorem fits_blank (width bound : Nat) : (blank width).Fits width bound :=
  ⟨by simp [blank], fun s hs => by simp [blank] at hs⟩

theorem Fits.mono {d : Draft} {width m n : Nat} (h : d.Fits width m) (hmn : m ≤ n) :
    d.Fits width n :=
  ⟨h.size_next, fun s hs => Nat.lt_of_lt_of_le (h.next_lt s hs) hmn⟩

theorem Fits.size_targets {d : Draft} {width bound : Nat} (h : d.Fits width bound) :
    d.targets.size = width := by
  rw [targets, Array.size_map, h.size_next]

theorem Fits.targets_lt {d : Draft} {width bound : Nat} (h : d.Fits width bound)
    (hpos : 0 < bound) : ∀ s ∈ d.targets, s < bound := by
  intro s hs
  obtain ⟨target, htarget, rfl⟩ := Array.mem_map.1 hs
  cases target with
  | none => exact hpos
  | some s => exact h.next_lt s htarget

end Draft

/-- An automaton under construction. The key of the initial state is the first one. -/
structure Builder (κ : Type) [Ord κ] where
  alphabet : Alphabet
  keys : Numbering κ
  drafts : Array Draft
  size_drafts : drafts.size = keys.size
  size_pos : 0 < drafts.size
  fits : ∀ d ∈ drafts, d.Fits alphabet.size drafts.size

namespace Builder

variable {κ : Type} [Ord κ]

def numStates (b : Builder κ) : Nat := b.drafts.size

def modify (b : Builder κ) (i : StateId) (f : Draft → Draft)
    (hf : ∀ d, d.Fits b.alphabet.size b.drafts.size → (f d).Fits b.alphabet.size b.drafts.size) :
    Builder κ where
  alphabet := b.alphabet
  keys := b.keys
  drafts := b.drafts.modify i f
  size_drafts := by simp [b.size_drafts]
  size_pos := by simpa using b.size_pos
  fits := by
    intro d hd
    rw [Array.size_modify]
    obtain ⟨j, hj, rfl⟩ := Array.mem_iff_getElem.1 hd
    rw [Array.size_modify] at hj
    rw [Array.getElem_modify]
    split
    · exact hf _ (b.fits _ (Array.getElem_mem hj))
    · exact b.fits _ (Array.getElem_mem hj)

def setNext (b : Builder κ) (i : StateId) (k : Nat) (target : StateId)
    (h : target < b.drafts.size) : Builder κ :=
  b.modify i (fun d => { d with next := d.next.setIfInBounds k (some target) }) fun d hd => by
    refine ⟨by simpa using hd.size_next, fun s hs => ?_⟩
    rcases Array.mem_or_eq_of_mem_setIfInBounds hs with hs | hs
    · exact hd.next_lt s hs
    · cases hs
      exact h

theorem size_flatMap_targets {drafts : Array Draft} {width : Nat}
    (h : ∀ d ∈ drafts, d.targets.size = width) :
    (drafts.flatMap Draft.targets).size = drafts.size * width := by
  rw [Array.size_flatMap, Array.map_congr_left h, Array.map_const', Array.sum_replicate_nat]

def build (b : Builder κ) : Except Error Automaton :=
  match b.drafts.findIdx? fun d => !d.isComplete with
  | some i => .error (.missingTransition i)
  | none =>
    .ok {
      alphabet := b.alphabet
      numFinals := b.drafts.countP Draft.accepting
      states := b.drafts.map Draft.toState
      delta := b.drafts.flatMap Draft.targets
      size_pos := by simpa using b.size_pos
      size_delta := by rw [size_flatMap_targets fun d hd => (b.fits d hd).size_targets, Array.size_map]
      delta_lt := by
        intro s hs
        obtain ⟨d, hd, hs⟩ := Array.mem_flatMap.1 hs
        rw [Array.size_map]
        exact (b.fits d hd).targets_lt b.size_pos s hs
      numFinals_eq := by
        rw [Array.countP_map]
        rfl }

variable [TransOrd κ] [LawfulEqOrd κ]

def start (key : κ) (a : Alphabet) : Builder κ where
  alphabet := a
  keys := Numbering.empty.push key (by rfl)
  drafts := #[.blank a.size]
  size_drafts := rfl
  size_pos := Nat.one_pos
  fits := by
    intro d hd
    rw [Array.mem_singleton.1 hd]
    exact Draft.fits_blank ..

def mention (b : Builder κ) (key : κ) : StateId × Builder κ :=
  match h : b.keys.find? key with
  | some i => (i, b)
  | none =>
    (b.drafts.size, {
      alphabet := b.alphabet
      keys := b.keys.push key h
      drafts := b.drafts.push (.blank b.alphabet.size)
      size_drafts := by simp [b.size_drafts]
      size_pos := by simp
      fits := by
        intro d hd
        rw [Array.size_push]
        rcases Array.mem_push.1 hd with hd | rfl
        · exact (b.fits d hd).mono (Nat.le_succ _)
        · exact Draft.fits_blank .. })

theorem mention_lt (b : Builder κ) (key : κ) : (b.mention key).1 < (b.mention key).2.numStates := by
  unfold mention numStates
  split
  next i h => exact b.size_drafts ▸ Numbering.lt_size_of_find? h
  · simp

def markFinal (b : Builder κ) (key : κ) : Builder κ :=
  let r := b.mention key
  r.2.modify r.1 (fun d => { d with accepting := true }) fun _ hd => ⟨hd.size_next, hd.next_lt⟩

def connect (b : Builder κ) (key : κ) (k : Nat) (target : κ) : Builder κ :=
  let r := b.mention key
  let r' := r.2.mention target
  r'.2.setNext r.1 k r'.1 (r.2.mention_lt target)

def addTransition? (b : Builder κ) (key : κ) (k : Nat) (target : κ) : Option (Builder κ) :=
  if k < b.alphabet.size then some (b.connect key k target) else none

def addSymbolTransition (b : Builder κ) (key : κ) (c : Char) (target : κ) :
    Except Error Unit × Builder κ :=
  match b.alphabet.index c with
  | .ok k => (.ok (), b.connect key k target)
  | .error e => (.error e, b)

end Builder

end Residual
