import RaleighSL.Core.Errno
import Mathlib.Data.List.Basic

/-!
# Atoms of a transaction on one object

`core/transaction.c` keeps, for each object a transaction wrote, a singly linked
list of atoms and a pointer to its last one. The list is given here as the
addresses reached from the head. Reading the link of an atom that was freed is
undefined behaviour and has no result.
-/
namespace RaleighSL.Core

structure AtomGroup where
  chain : List Addr
  tail : Option Addr
  deriving DecidableEq, Repr

namespace AtomGroup

def empty : AtomGroup := { chain := [], tail := none }

/-- `atoms_tail->next = atom`: what followed the tail, if anything, is cut off. -/
def linkAfter (z a : Addr) : List Addr → List Addr
  | [] => []
  | p :: l => if p = z then [p, a] else p :: linkAfter z a l

/-- `raleighsl_transaction_add`. -/
def add (live : Addr → Bool) (g : AtomGroup) (a : Addr) : Option AtomGroup :=
  match g.tail with
  | none => some { chain := [a], tail := some a }
  | some z => if live z then some { chain := linkAfter z a g.chain, tail := some a } else none

/-- The loop of `raleighsl_transaction_replace` behind the head, where `prev` is the atom before. -/
def replaceIn (live : Addr → Bool) (atom : Addr) (new : Option Addr) : List Addr → Option (List Addr)
  | [] => some []
  | p :: l =>
    if live p then
      if p = atom then some (new.toList ++ l) else (replaceIn live atom new l).map (p :: ·)
    else none

/-- `raleighsl_transaction_replace`, and `raleighsl_transaction_remove` without a new atom. At the
head `prev` is the atom itself, which therefore stays in the list. The tail is not updated. -/
def replace (live : Addr → Bool) (g : AtomGroup) (atom : Addr) (new : Option Addr) : Option AtomGroup :=
  match g.chain with
  | [] => some g
  | p :: l =>
    if live p then
      if p = atom then some { g with chain := p :: (new.toList ++ l) }
      else (replaceIn live atom new l).map (fun l => { g with chain := p :: l })
    else none

theorem linkAfter_last {z : Addr} (a : Addr) {l : List Addr} (h : z ∉ l) :
    linkAfter z a (l ++ [z]) = l ++ [z] ++ [a] := by
  induction l with
  | nil => simp [linkAfter]
  | cons p l ih =>
    rw [List.mem_cons, not_or] at h
    simp [linkAfter, Ne.symm h.1, ih h.2]

theorem add_eq {live : Addr → Bool} {g : AtomGroup} (hnd : g.chain.Nodup) (htail : g.tail = g.chain.getLast?)
    (hlive : ∀ a ∈ g.chain, live a) (a : Addr) :
    g.add live a = some { chain := g.chain ++ [a], tail := some a } := by
  cases hl : g.chain.getLast? with
  | none =>
    rw [List.getLast?_eq_none_iff] at hl
    simp [add, htail, hl]
  | some z =>
    obtain ⟨l, hl'⟩ := List.getLast?_eq_some_iff.mp hl
    have hz : z ∉ l := by
      rw [hl', List.nodup_append] at hnd
      exact fun hc => hnd.2.2 z hc z (by simp) rfl
    have hlz : live z := hlive z (by simp [hl'])
    simp [add, htail, hlz, hl', linkAfter_last a hz]

theorem replaceIn_eq {live : Addr → Bool} {atom : Addr} (new : Option Addr) {l m : List Addr} (hatom : atom ∉ l)
    (hlive : ∀ a ∈ l ++ [atom], live a) :
    replaceIn live atom new (l ++ atom :: m) = some (l ++ (new.toList ++ m)) := by
  induction l with
  | nil => simp [replaceIn, hlive atom (by simp)]
  | cons p l ih =>
    rw [List.mem_cons, not_or] at hatom
    have hrest := ih hatom.2 (fun a ha => hlive a (List.mem_cons_of_mem p ha))
    simp [replaceIn, hlive p (by simp), Ne.symm hatom.1, hrest]

/-- What is left in front of the place of an atom: the atoms before it, or itself at the head. -/
def front (atom : Addr) (l : List Addr) : List Addr := if l = [] then [atom] else l

theorem replace_eq {live : Addr → Bool} {g : AtomGroup} {atom : Addr} (new : Option Addr) {l m : List Addr}
    (hchain : g.chain = l ++ atom :: m) (hatom : atom ∉ l) (hlive : ∀ a ∈ l ++ [atom], live a) :
    g.replace live atom new = some { g with chain := front atom l ++ (new.toList ++ m) } := by
  cases l with
  | nil => simp [replace, hchain, front, hlive atom (by simp)]
  | cons p l =>
    rw [List.mem_cons, not_or] at hatom
    have hrest : replaceIn live atom new (l ++ atom :: m) = some (l ++ (new.toList ++ m)) :=
      replaceIn_eq new hatom.2 (fun a ha => hlive a (List.mem_cons_of_mem p ha))
    simp [replace, hchain, front, hlive p (by simp), Ne.symm hatom.1, hrest]

end AtomGroup

end RaleighSL.Core
