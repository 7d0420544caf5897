import Packrat.Parse.Expr

/-! # Disciplined programs

    A parser's marks are one stack, shared by everything that runs on it.  An
    expression that is run speculatively or remembered must leave that stack as it
    found it, so bare marks and releases belong to the top level: they may stand
    anywhere in a sequence, a decision or a loop, but not inside the body of an
    attempt, an alternative of a choice or the body of a memo.

    `Discipline` collects what a program promises: which names refer to expressions
    without bare marks, which body goes with which memo name, and which depths are
    looked at.  `Lawful` says that an expression keeps the promises, `Governs` that
    all named expressions do.

    A `session` runs a list of operations on one parser.  A complaint about the
    input is an answer like any other and the session goes on; a fault or exhausted
    fuel ends it. -/

namespace Packrat

/-- What a program promises about the expressions it is made of. -/
structure Discipline (κ ν : Type) where
  /-- Names whose expressions set and release no marks of their own. -/
  quiet : ν → Prop
  /-- Memo names with the bodies they are used with. -/
  memo : String → Expr κ ν → Prop
  /-- Depths that are looked at. -/
  depth : Nat → Prop

variable {σ κ ν : Type}

/-- The expression keeps the promises of `d`.  Bare marks and releases are allowed only where `bare`
    is true. -/
inductive Lawful (d : Discipline κ ν) : Bool → Expr κ ν → Prop where
  | done {bare} : Lawful d bare .done
  | peek {bare depth} : d.depth depth → Lawful d bare (.peek depth)
  | peekKind {bare depth} : d.depth depth → Lawful d bare (.peekKind depth)
  | check {bare k} : Lawful d bare (.check k)
  | expect {bare k} : Lawful d bare (.expect k)
  | advance {bare} : Lawful d bare .advance
  | mark : Lawful d true .mark
  | release {restore} : Lawful d true (.release restore)
  | attempt {bare body} : Lawful d false body → Lawful d bare (.attempt body)
  | choose {bare name alternatives} : (∀ e ∈ alternatives, Lawful d false e) →
      Lawful d bare (.choose name alternatives)
  | memo {bare name body} : d.memo name body → Lawful d false body →
      Lawful d bare (.memo name body)
  | seq {bare first second} : Lawful d bare first → Lawful d bare second →
      Lawful d bare (.seq first second)
  | cond {bare k depth yes no} : d.depth depth → Lawful d bare yes → Lawful d bare no →
      Lawful d bare (.cond k depth yes no)
  | loop {bare k body} : Lawful d bare body → Lawful d bare (.loop k body)
  | trial {bare guard yes no} : Lawful d false guard → Lawful d bare yes → Lawful d bare no →
      Lawful d bare (.trial guard yes no)
  | call {bare name} : (bare = false → d.quiet name) → Lawful d bare (.call name)

/-- What is lawful without bare marks is lawful where they are allowed. -/
theorem Lawful.loosen {d : Discipline κ ν} {bare : Bool} {e : Expr κ ν} (h : Lawful d bare e) :
    Lawful d true e := by
  induction h with
  | done => exact .done
  | peek hd => exact .peek hd
  | peekKind hd => exact .peekKind hd
  | check => exact .check
  | expect => exact .expect
  | advance => exact .advance
  | mark => exact .mark
  | release => exact .release
  | attempt hb => exact .attempt hb
  | choose hb => exact .choose hb
  | memo hm hb => exact .memo hm hb
  | seq _ _ iha ihb => exact .seq iha ihb
  | cond hd _ _ ihy ihn => exact .cond hd ihy ihn
  | loop _ ih => exact .loop ih
  | trial hg _ _ _ ihy ihn => exact .trial hg ihy ihn
  | call _ => exact .call (fun h => nomatch h)

theorem Lawful.anywhere {d : Discipline κ ν} {bare : Bool} {e : Expr κ ν}
    (h : Lawful d false e) : Lawful d bare e := by
  cases bare with
  | false => exact h
  | true => exact h.loosen

namespace Discipline

/-- Every named expression keeps the promises, the quiet ones without bare marks. -/
def Governs (d : Discipline κ ν) (rules : ν → Expr κ ν) : Prop :=
  ∀ bare name, (bare = false → d.quiet name) → Lawful d bare (rules name)

/-- Every memo name is used with one body only. -/
def Functional (d : Discipline κ ν) : Prop :=
  ∀ name body body', d.memo name body → d.memo name body' → body = body'

/-- Some depth is so large, at least half of the 64-bit range, that the index of the token there may
    leave the range. -/
def Deep (d : Discipline κ ν) : Prop := ∃ depth, d.depth depth ∧ wordLimit ≤ 2 * depth

end Discipline

/-- The outcome is a value or a complaint about the input. -/
def isSettled {ε α : Type} : Except (Halt ε) α → Bool
  | .ok _ => true
  | .error (.failed _) => true
  | .error (.fault _) => false
  | .error .outOfFuel => false

/-- Runs the computations one after the other and tells the outcome of each and the state after it.
    The session ends with the first that is not settled. -/
def Run.session {S ε α : Type} : List (Run S ε α) → S → List (Except (Halt ε) α × S)
  | [], _ => []
  | m :: ms, s => m s :: if isSettled (m s).1 then session ms (m s).2 else []

/-- Runs the operations one after the other, with `fuel` for each. -/
def Expr.session [TokenStream σ κ] [DecidableEq κ] [TokenKind κ] (rules : ν → Expr κ ν)
    (fuel : Nat) (ops : List (Expr κ ν)) (p : Parser σ κ) :
    List (Except (Halt (ParseError κ)) (Value κ) × Parser σ κ) :=
  Run.session (ops.map (eval rules fuel)) p

end Packrat
