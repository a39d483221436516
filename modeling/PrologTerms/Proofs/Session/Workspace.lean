import PrologTerms.Session.Reading
import PrologTerms.Session.Unify

/-!
# Everything that can be done to a session

A user of a session makes terms, reads texts, unifies, and opens and closes transactions, in any
order, and keeps all the terms that were ever handed out. A workspace is a session together with
these terms and the transactions that are open; it is reachable if such a use has led to it.
-/

namespace PrologTerms

/-- Something that is asked of a session and does not change a term. -/
inductive Request
  /-- A new variable. -/
  | var
  /-- The atom of a name. -/
  | atom (name : String)
  /-- An integer. -/
  | int (n : Int)
  /-- A stand-in for an integer. -/
  | big (n : Nat)
  /-- A stand-in for a term. -/
  | global (n : Nat)
  /-- The empty list. -/
  | nil
  /-- The term of a name and arguments. -/
  | term (name : String) (args : List Cell)
  /-- The list of some elements in front of a tail. -/
  | list (items : List Cell) (tail : Cell)
  /-- The functor of a name and a number of arguments. -/
  | functor (name : String) (arity : Nat)
  /-- The value of a variable. -/
  | deref (c : Cell)
  /-- An argument of a compound term. -/
  | arg (c : Cell) (n : Nat)
  /-- The first clause of a text. -/
  | parse (text : String)
  /-- All clauses of a text. -/
  | parseAll (text : String)
  /-- A new operator. -/
  | addOp (name : String) (priority : Nat) (cls : OpClass)

/-- The terms that a request is about. -/
def Request.terms : Request → List Cell
  | .term _ args => args
  | .list items tail => tail :: items
  | .deref c => [c]
  | .arg c _ => [c]
  | _ => []

/-- The terms handed out in answer to a request, if it can be answered. -/
def Session.answer? (s : Session) : Request → Option (List Cell × Session)
  | .var => some ([s.newVar.1], s.newVar.2)
  | .atom name => some ([(s.newAtom name).1], (s.newAtom name).2)
  | .int n => if fitsWord n then some ([.int n], s) else none
  | .big n => some ([.big n], s)
  | .global n => some ([.global n], s)
  | .nil => some ([.nil], s)
  | .term name args => some ([(s.newTerm name args).1], (s.newTerm name args).2)
  | .list items tail => some ([(s.newList items tail).1], (s.newList items tail).2)
  | .functor name arity => some ([], (s.functor name arity).2)
  | .deref c => (s.heap.deref? c).map fun d => ([d], s)
  | .arg c n => (s.heap.arg? c n).map fun d => ([d], s)
  | .parse text => some ((s.parse text).1.toOption.toList, (s.parse text).2)
  | .parseAll text => some ((s.parseAll text).1.toOption.getD [], (s.parseAll text).2)
  | .addOp name priority cls => some ([], s.addOp name priority cls)

/-- What a user can do. -/
inductive Action
  /-- Ask for something. -/
  | request (r : Request)
  /-- Unify two terms, or leave all as it was. -/
  | unify (a b : Cell)
  /-- Unify two terms in a transaction that stays open, or leave all as it was. -/
  | tryUnify (a b : Cell)
  /-- Open a transaction. -/
  | begin
  /-- Close the innermost transaction and keep its bindings. -/
  | commit
  /-- Close the innermost transaction and undo its bindings. -/
  | rollback
  /-- Undo the bindings between two depths of the trail. -/
  | unwind (start stop : Nat)
  /-- Forget the bindings from a depth of the trail on. -/
  | trim (depth : Nat)

/-- Does the action tamper with the trail? -/
def Action.isManual : Action → Bool
  | .unwind _ _ => true
  | .trim _ => true
  | _ => false

/-- A session as its user has it. -/
structure Workspace where
  /-- The session. -/
  session : Session
  /-- All terms handed out so far. -/
  handles : List Cell := []
  /-- The open transactions, the innermost first. -/
  opened : List Checkpoint := []
  /-- Every slot of the heap with what it held when it was made. -/
  born : Heap := {}
deriving DecidableEq

namespace Workspace

/-- The heap. -/
def heap (w : Workspace) : Heap := w.session.heap

/-- The store. -/
def store (w : Workspace) : Store := w.session.store

/-- Takes over a session and new terms in it. -/
def advance (w : Workspace) (cs : List Cell) (s : Session) : Workspace :=
  { w with
    session := s
    handles := cs ++ w.handles
    born := w.born.append (s.heap.toList.drop w.born.size) }

/-- What an action leads to, if it is possible: its terms must have been handed out, and there must
be a transaction to close. A transaction whose bindings cannot be undone, because they have been
forgotten, is closed without changing anything. -/
def perform? (w : Workspace) : Action → Option Workspace
  | .request r =>
    if ∀ c ∈ r.terms, c ∈ w.handles then
      (w.session.answer? r).map fun p => w.advance p.1 p.2
    else none
  | .unify a b =>
    if a ∈ w.handles ∧ b ∈ w.handles then
      (w.session.unify? a b).map fun p => { w with session := p.2 }
    else none
  | .tryUnify a b =>
    if a ∈ w.handles ∧ b ∈ w.handles then
      (w.session.tryUnify? a b).map fun t =>
        match t with
        | .success cp s => { w with session := s, opened := cp :: w.opened }
        | .failure _ s => { w with session := s }
    else none
  | .begin =>
    some { w with
      session := w.session.openTransaction.2
      opened := w.session.openTransaction.1 :: w.opened }
  | .commit =>
    match w.opened with
    | [] => none
    | cp :: opened => some { w with session := w.session.commit cp, opened }
  | .rollback =>
    match w.opened with
    | [] => none
    | cp :: opened =>
      some { w with session := (w.session.rollback? cp).getD w.session, opened }
  | .unwind start stop => (w.session.unwind? start stop).map fun s => { w with session := s }
  | .trim depth => some { w with session := w.session.trim depth }

/-- A new session without terms, with no operators or the standard ones, and with or without a
record of events. -/
def IsNew (w : Workspace) : Prop :=
  ∃ ops journal, (ops = .empty ∨ ops = .standard) ∧ w = { session := { ops, journal } }

/-- Some use of a new session has led to the workspace. -/
inductive Reachable : Workspace → Prop
  /-- Nothing has been done yet. -/
  | new {w : Workspace} (h : w.IsNew) : Reachable w
  /-- One more action was performed. -/
  | step {w w' : Workspace} (a : Action) (hw : Reachable w) (h : w.perform? a = some w') :
      Reachable w'

/-- What holds of new workspaces and is kept by every action holds of all reachable ones. -/
theorem Reachable.invariant {P : Workspace → Prop} (hnew : ∀ w, w.IsNew → P w)
    (hstep : ∀ w w' a, P w → w.perform? a = some w' → P w') {w : Workspace} (hw : w.Reachable) :
    P w := by
  induction hw with
  | new h => exact hnew _ h
  | step a _ h ih => exact hstep _ _ a ih h

/-- What several actions lead to, one after the other. -/
def run? (w : Workspace) : List Action → Option Workspace
  | [] => some w
  | a :: as => (w.perform? a).bind fun w' => w'.run? as

theorem Reachable.run {w w' : Workspace} (hw : w.Reachable) (as : List Action)
    (h : w.run? as = some w') : w'.Reachable := by
  induction as generalizing w with
  | nil =>
    cases h
    exact hw
  | cons a as ih =>
    obtain ⟨w₁, h₁, h₂⟩ := Option.bind_eq_some_iff.1 h
    exact ih (hw.step a h₁) h₂

/-- A new session with the standard operators, in which no events are recorded. -/
def blank : Workspace := { session := {} }

theorem reachable_blank : blank.Reachable := .new ⟨.standard, none, .inr rfl, rfl⟩

end Workspace

end PrologTerms
