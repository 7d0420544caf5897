import Packrat.Proofs.Evaluation

/-! # Grammars inside larger grammars

    A grammar is put beside other expressions by giving its rules names in a larger
    table.  The names make no difference: a rule does under its new name what it did
    under the old one. -/

namespace Packrat

variable {σ κ ν μ : Type}

namespace Expr

mutual

/-- The expression with other names. -/
def rename (f : ν → μ) : Expr κ ν → Expr κ μ
  | .done => .done
  | .peek depth => .peek depth
  | .peekKind depth => .peekKind depth
  | .check k => .check k
  | .expect k => .expect k
  | .advance => .advance
  | .mark => .mark
  | .release restore => .release restore
  | .attempt body => .attempt (body.rename f)
  | .choose name alternatives => .choose name (renameAll f alternatives)
  | .memo name body => .memo name (body.rename f)
  | .seq first second => .seq (first.rename f) (second.rename f)
  | .cond k depth yes no => .cond k depth (yes.rename f) (no.rename f)
  | .loop k body => .loop k (body.rename f)
  | .trial guard yes no => .trial (guard.rename f) (yes.rename f) (no.rename f)
  | .call name => .call (f name)

/-- So it is with all the expressions. -/
def renameAll (f : ν → μ) : List (Expr κ ν) → List (Expr κ μ)
  | [] => []
  | e :: es => e.rename f :: renameAll f es

end

theorem renameAll_eq_map (f : ν → μ) (es : List (Expr κ ν)) :
    renameAll f es = es.map (rename f) := by
  induction es with
  | nil => rfl
  | cons e es ih => rw [renameAll, ih, List.map_cons]

section

variable {rules : ν → Expr κ ν} {rules' : μ → Expr κ μ} {f : ν → μ} {e : Expr κ ν}
  {e' : Expr κ μ}

theorem eq_memo_of_rename {name : String} {body : Expr κ μ} (h : e.rename f = .memo name body) :
    ∃ body', e = .memo name body' ∧ body = body'.rename f := by
  cases e with
  | memo name' body' =>
      rw [rename] at h
      obtain ⟨rfl, rfl⟩ := Expr.memo.inj h
      exact ⟨body', rfl, rfl⟩
  | _ =>
      rw [rename] at h
      exact nomatch h

/-- The parts of a renamed expression are renamed parts. -/
theorem part_of_rename (h : ∀ name, rules' (f name) = (rules name).rename f)
    (hpart : Part rules' (e.rename f) e') : ∃ e₀, e' = e₀.rename f ∧ Part rules e e₀ := by
  -- a part of a renamed expression is a renamed part, whatever the expression is made of
  cases e with
  | attempt | memo | loop | seq | cond | trial =>
      rw [rename] at hpart
      cases hpart <;> exact ⟨_, rfl, by constructor⟩
  | choose name alternatives =>
      rw [rename, renameAll_eq_map] at hpart
      cases hpart with
      | choose hmem =>
          obtain ⟨e₀, hmem₀, rfl⟩ := List.mem_map.mp hmem
          exact ⟨e₀, rfl, .choose hmem₀⟩
  | call name =>
      rw [rename] at hpart
      cases hpart
      exact ⟨_, h name, .call⟩
  | _ =>
      rw [rename] at hpart
      exact nomatch hpart

/-- So is everything that it contains. -/
theorem contains_of_rename (h : ∀ name, rules' (f name) = (rules name).rename f)
    (hc : (e.rename f).Contains rules' e') : ∃ e₀, e' = e₀.rename f ∧ e.Contains rules e₀ := by
  induction hc with
  | refl => exact ⟨e, rfl, .refl⟩
  | tail _ hpart ih =>
      obtain ⟨e₀, rfl, hc₀⟩ := ih
      obtain ⟨e₁, rfl, hpart₀⟩ := part_of_rename h hpart
      exact ⟨e₁, rfl, hc₀.tail hpart₀⟩

end

variable [TokenStream σ κ] [DecidableEq κ] [TokenKind κ]

/-- **Names do not matter**, where the new ones stand for what the old ones stood for. -/
theorem eval_rename {rules : ν → Expr κ ν} {rules' : μ → Expr κ μ} {f : ν → μ}
    (h : ∀ name, rules' (f name) = (rules name).rename f) (fuel : Nat) (e : Expr κ ν) :
    (eval rules' fuel (e.rename f) : Parsing σ κ (Value κ)) = eval rules fuel e := by
  -- on the fuel, since a call goes on with the expression of another rule
  induction fuel generalizing e with
  | zero => rfl
  | succ fuel ih =>
      cases e with
      | attempt body => rw [rename, eval, eval, ih]
      | choose name alternatives =>
          have hall : ((alternatives.map (rename f)).map fun e => discard (eval rules' fuel e))
              = alternatives.map fun e => (discard (eval rules fuel e) : Parsing σ κ Unit) := by
            rw [List.map_map]
            exact List.map_congr_left fun e _ => congrArg discard (ih e)
          rw [rename, eval, eval, renameAll_eq_map, hall]
      | memo name body => rw [rename, eval, eval, ih]
      | seq first second => rw [rename, eval, eval, ih, ih]
      | cond k depth yes no => rw [rename, eval, eval, ih, ih]
      -- the loop goes on as the same loop, which has to be renamed back first
      | loop k body => rw [rename, eval, eval, ih, ← ih (.loop k body), rename]
      | trial guard yes no => rw [rename, eval, eval, ih, ih, ih]
      | call name => rw [rename, eval, eval, h, ih]
      | _ => rfl

end Expr

end Packrat
