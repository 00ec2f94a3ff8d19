/-
Module: NsuLabs.Calculator.Proofs.Associativity
Purpose: The value of an expression under the usual rules against the value the evaluator computes.
Trusted boundary: none
Main exports: evaluatedAsUsual_iff
-/
import NsuLabs.Calculator.Calculator

namespace NsuLabs.Calculator

open List

variable {left right : Tree} {x y : Option Int}

/-! ### The usual value of an expression -/

def naturalValue (digits : List (Fin 10)) : Nat :=
  digits.foldl (fun value (digit : Fin 10) => value * 10 + digit.val) 0

def AddOp.apply : AddOp → Int → Int → Int
  | plus, x, y => x + y
  | minus, x, y => x - y

/-- Division truncates toward zero. -/
def MulOp.apply : MulOp → Int → Int → Option Int
  | times, x, y => some (x * y)
  | dividedBy, x, y => if y = 0 then none else some (x.tdiv y)

mutual

/-- The value, or `none` where the evaluation divides by zero. -/
def Expr.eval : Expr → Option Int
  | .term t => t.eval
  | .add e op t => do
      let x ← e.eval
      let y ← t.eval
      some (op.apply x y)

def Term.eval : Term → Option Int
  | .factor f => f.eval
  | .mul t op f => do
      let x ← t.eval
      let y ← f.eval
      op.apply x y

def Factor.eval : Factor → Option Int
  | .digits first rest => some (naturalValue (first :: rest))
  | .paren e => e.eval

end

/-- The value is in the range of `int`. -/
def InInt (value : Option Int) : Prop := ∀ x ∈ value, -2 ^ 31 ≤ x ∧ x < 2 ^ 31

mutual

/-- All intermediate values are in the range of `int`. -/
def Expr.Fits : Expr → Prop
  | .term t => t.Fits
  | .add e op t => e.Fits ∧ t.Fits ∧ InInt (Expr.add e op t).eval

def Term.Fits : Term → Prop
  | .factor f => f.Fits
  | .mul t op f => t.Fits ∧ f.Fits ∧ InInt (Term.mul t op f).eval

def Factor.Fits : Factor → Prop
  | .digits first rest => InInt (Factor.digits first rest).eval
  | .paren e => e.Fits

end

/-- The expression ends with a `-` in front of a product or quotient. -/
def Expr.EndsWithMinusProduct : Expr → Prop
  | .add _ .minus (.mul _ _ _) => True
  | _ => False

mutual

/-- Inside every pair of brackets, no `-` in front of a product or quotient is followed by another
    `+` or `-`. -/
def Expr.NoBuriedMinus : Expr → Prop
  | .term t => t.NoBuriedMinus
  | .add e _ t => e.NoBuriedMinus ∧ t.NoBuriedMinus ∧ ¬ e.EndsWithMinusProduct

def Term.NoBuriedMinus : Term → Prop
  | .factor f => f.NoBuriedMinus
  | .mul t _ f => t.NoBuriedMinus ∧ f.NoBuriedMinus

def Factor.NoBuriedMinus : Factor → Prop
  | .digits _ _ => True
  | .paren e => e.NoBuriedMinus

end

mutual

/-- The expression with the brackets with which the evaluator reads it: a product or quotient behind
    a `+` or `-` forms a group with everything that follows it. -/
def Expr.regroup : Expr → Expr
  | .term t => .term t.regroup
  | .add e op t => e.regroupBefore fun left => .add left op t.regroup

/-- The same for an expression that `rest` goes on behind. -/
def Expr.regroupBefore : Expr → (rest : Expr → Expr) → Expr
  | .term t, rest => rest (.term t.regroup)
  | .add e op (.factor f), rest => e.regroupBefore fun left => rest (.add left op (.factor f.regroup))
  | .add e op (.mul t op' f), rest =>
    e.regroupBefore fun left => .add left op (.factor (.paren (rest (.term (.mul t.regroup op' f.regroup)))))

def Term.regroup : Term → Term
  | .factor f => .factor f.regroup
  | .mul t op f => .mul t.regroup op f.regroup

def Factor.regroup : Factor → Factor
  | .digits first rest => .digits first rest
  | .paren e => .paren e.regroup

end

mutual

/-- The expression as the usual rules read it. -/
def Expr.usualTree : Expr → Tree
  | .term t => t.usualTree
  | .add e op t => .node op.operation e.usualTree t.usualTree

def Term.usualTree : Term → Tree
  | .factor f => f.usualTree
  | .mul t op f => .node op.operation t.usualTree f.usualTree

def Factor.usualTree : Factor → Tree
  | .digits first rest => .number (numberValue (first :: rest))
  | .paren e => e.usualTree

end

mutual

theorem Expr.inInt_of_fits : ∀ (e : Expr), e.Fits → InInt e.eval
  | .term t, h => t.inInt_of_fits h
  | .add _ _ _, h => h.2.2

theorem Term.inInt_of_fits : ∀ (t : Term), t.Fits → InInt t.eval
  | .factor f, h => f.inInt_of_fits h
  | .mul _ _ _, h => h.2.2

theorem Factor.inInt_of_fits : ∀ (f : Factor), f.Fits → InInt f.eval
  | .digits _ _, h => h
  | .paren e, h => e.inInt_of_fits h

end

/-! ### The usual value in `int` -/

theorem numberValue_eq (digits : List (Fin 10)) :
    numberValue digits = Int32.ofInt (naturalValue digits) := by
  have hfold : ∀ value : Nat,
      digits.foldl (fun value (digit : Fin 10) => value * 10 + Int32.ofNat digit.val) (Int32.ofNat value) =
        Int32.ofNat (digits.foldl (fun value (digit : Fin 10) => value * 10 + digit.val) value) := by
    induction digits with
    | nil => exact fun _ => rfl
    | cons digit digits ih =>
      intro value
      rw [foldl_cons, foldl_cons, ← ih, Int32.ofNat_add, Int32.ofNat_mul]
      rfl
  rw [Int32.ofInt_eq_ofNat]
  exact hfold 0

/-- A usual value as a result of the evaluator. -/
def asResult : Option Int → Except Exit Int32
  | some x => .ok (Int32.ofInt x)
  | none => .error .divisionByZero

theorem Tree.value_addOp (op : AddOp) (hleft : left.value = asResult x) (hright : right.value = asResult y) :
    (Tree.node op.operation left right).value =
      asResult (x.bind fun x => y.bind fun y => some (op.apply x y)) := by
  rw [Tree.value, hleft, hright]
  cases x with
  | none => rfl
  | some x =>
    cases y with
    | none => rfl
    | some y =>
      cases op with
      | plus => exact congrArg Except.ok (Int32.ofInt_add x y).symm
      | minus => exact congrArg Except.ok (Int32.ofInt_sub x y).symm

theorem Tree.value_mulOp (op : MulOp) (hx : InInt x) (hy : InInt y)
    (hresult : InInt (x.bind fun x => y.bind fun y => op.apply x y)) (hleft : left.value = asResult x)
    (hright : right.value = asResult y) :
    (Tree.node op.operation left right).value = asResult (x.bind fun x => y.bind fun y => op.apply x y) := by
  rw [Tree.value, hleft, hright]
  cases x with
  | none => rfl
  | some x =>
    cases y with
    | none => rfl
    | some y =>
      cases op with
      | times => exact congrArg Except.ok (Int32.ofInt_mul x y).symm
      | dividedBy =>
        have hxr := hx x rfl
        have hyr := hy y rfl
        have hzero : Int32.ofInt y = 0 ↔ y = 0 := by
          rw [← Int32.toInt_inj, Int32.toInt_ofInt_of_le hyr.1 hyr.2]
          rfl
        change (if Int32.ofInt y = 0 then _ else _ : Except Exit Int32) =
          asResult (if y = 0 then none else some (x.tdiv y))
        by_cases hy0 : y = 0
        · rw [if_pos (hzero.mpr hy0), if_pos hy0]
          rfl
        · have hmax : Int32.maxValue.toInt = 2 ^ 31 - 1 := by decide
          have hmin : Int32.minValue.toInt = -2 ^ 31 := by decide
          -- the quotient that traps is out of range
          have htrap : ¬ (Int32.ofInt x = Int32.minValue ∧ Int32.ofInt y = -1) := by
            rintro ⟨hxmin, hyone⟩
            rw [← Int32.toInt_inj, Int32.toInt_ofInt_of_le hxr.1 hxr.2, hmin] at hxmin
            rw [← Int32.toInt_inj, Int32.toInt_ofInt_of_le hyr.1 hyr.2] at hyone
            have hquotient := hresult (x.tdiv y) (if_neg hy0)
            rw [hxmin, hyone] at hquotient
            revert hquotient
            decide
          rw [if_neg (mt hzero.mp hy0), if_neg htrap, if_neg hy0]
          exact congrArg Except.ok (@Int32.ofInt_tdiv x y (by omega) (by omega) (by omega) (by omega)).symm

mutual

theorem Expr.value_usualTree : ∀ e : Expr, e.Fits → e.usualTree.value = asResult e.eval
  | .term t, h => t.value_usualTree h
  | .add e op t, h => Tree.value_addOp op (e.value_usualTree h.1) (t.value_usualTree h.2.1)

theorem Term.value_usualTree : ∀ t : Term, t.Fits → t.usualTree.value = asResult t.eval
  | .factor f, h => f.value_usualTree h
  | .mul t op f, h =>
    Tree.value_mulOp op (t.inInt_of_fits h.1) (f.inInt_of_fits h.2.1) h.2.2 (t.value_usualTree h.1)
      (f.value_usualTree h.2.1)

theorem Factor.value_usualTree : ∀ f : Factor, f.Fits → f.usualTree.value = asResult f.eval
  | .digits first rest, _ => by
      rw [Factor.usualTree, Tree.value, numberValue_eq]
      rfl
  | .paren e, h => e.value_usualTree h

end

/-! ### The brackets of the evaluator -/

theorem collapse_append (pending pending' : Pending) (top : Tree) :
    collapse (pending ++ pending') top = collapse pending' (collapse pending top) := by
  induction pending generalizing top with
  | nil => rfl
  | cons p pending ih => exact ih (.node p.2 p.1 top)

theorem collapse_reduceTop (load : Pending × Tree) :
    collapse (reduceTop load).1 (reduceTop load).2 = collapse load.1 load.2 := by
  obtain ⟨pending, top⟩ := load
  cases pending <;> rfl

theorem Term.collapse_load (t : Term) : collapse t.load.1 t.load.2 = t.tree := by
  cases t <;> rfl

theorem Expr.tree_add (e : Expr) (op : AddOp) (t : Term) :
    (Expr.add e op t).tree =
      collapse (reduceTop e.load).1 (.node op.operation (reduceTop e.load).2 t.tree) := by
  rw [Expr.tree, Expr.load, collapse_append, t.collapse_load]
  rfl

mutual

theorem Expr.usualTree_regroup : ∀ e : Expr, e.regroup.usualTree = e.tree
  | .term t => by
      rw [Expr.tree, Expr.load, t.collapse_load]
      exact t.usualTree_regroup
  | .add e op t => by
      rw [Expr.tree_add, ← t.usualTree_regroup]
      exact e.usualTree_regroupBefore _ (.node op.operation · t.regroup.usualTree) fun _ => rfl

theorem Expr.usualTree_regroupBefore : ∀ (e : Expr) (rest : Expr → Expr) (restTree : Tree → Tree),
    (∀ left, (rest left).usualTree = restTree left.usualTree) →
    (e.regroupBefore rest).usualTree = collapse (reduceTop e.load).1 (restTree (reduceTop e.load).2)
  | .term (.factor f), _, restTree, h => (h _).trans (congrArg restTree f.usualTree_regroup)
  | .term (.mul t op f), _, restTree, h => by
      refine (h _).trans (congrArg restTree ?_)
      exact (Term.mul t op f).usualTree_regroup
  | .add e op (.factor f), rest, restTree, h => by
      have hrest : ∀ left : Expr, (rest (.add left op (.factor f.regroup))).usualTree =
          restTree (.node op.operation left.usualTree f.tree) := by
        intro left
        rw [h, Expr.usualTree, Term.usualTree, f.usualTree_regroup]
      exact e.usualTree_regroupBefore _ (fun left => restTree (.node op.operation left f.tree)) hrest
  | .add e op (.mul t op' f), rest, restTree, h => by
      have hrest : ∀ left : Expr,
          (Expr.add left op (.factor (.paren (rest (.term (.mul t.regroup op' f.regroup)))))).usualTree =
            .node op.operation left.usualTree (restTree (.node op'.operation t.tree f.tree)) := by
        intro left
        rw [Expr.usualTree, Term.usualTree, Factor.usualTree, h, Expr.usualTree, Term.usualTree,
          t.usualTree_regroup, f.usualTree_regroup]
      exact e.usualTree_regroupBefore _
        (.node op.operation · (restTree (.node op'.operation t.tree f.tree))) hrest

theorem Term.usualTree_regroup : ∀ t : Term, t.regroup.usualTree = t.tree
  | .factor f => f.usualTree_regroup
  | .mul t op f => by rw [Term.regroup, Term.usualTree, t.usualTree_regroup, f.usualTree_regroup, Term.tree]

theorem Factor.usualTree_regroup : ∀ f : Factor, f.regroup.usualTree = f.tree
  | .digits _ _ => rfl
  | .paren e => e.usualTree_regroup

end

/-! ### Pending additions -/

theorem collapse_value_congr (pending : Pending) {top top' : Tree} (h : top.value = top'.value) :
    (collapse pending top).value = (collapse pending top').value := by
  induction pending generalizing top top' with
  | nil => exact h
  | cons p pending ih =>
    apply ih
    rw [Tree.value, Tree.value, h]

def OnlyPlus (pending : Pending) : Prop := ∀ p ∈ pending, p.2 = .add

/-- Under pending additions it does not matter that the operator on top is applied before them. -/
theorem collapse_node_of_onlyPlus {pending : Pending} (hplus : OnlyPlus pending) (op : AddOp)
    (left right : Tree) : (collapse pending (.node op.operation left right)).value =
      (Tree.node op.operation (collapse pending left) right).value := by
  induction pending generalizing left with
  | nil => rfl
  | cons p pending ih =>
    obtain ⟨first, pendingOp⟩ := p
    obtain rfl : pendingOp = .add := hplus (first, pendingOp) mem_cons_self
    have hassoc : (Tree.node .add first (.node op.operation left right)).value =
        (Tree.node op.operation (.node .add first left) right).value := by
      simp only [Tree.value]
      cases first.value <;> cases left.value <;> cases right.value <;> try rfl
      cases op <;> refine congrArg Except.ok ?_ <;> grind
    rw [collapse, collapse_value_congr pending hassoc]
    exact ih (fun p hp => hplus p (mem_cons_of_mem _ hp)) _

/-- What stays pending when another `+` or `-` follows. -/
theorem Expr.onlyPlus_reduceTop : ∀ {e : Expr}, e.NoBuriedMinus → ¬ e.EndsWithMinusProduct →
    OnlyPlus (reduceTop e.load).1
  | .term (.factor _), _, _ | .term (.mul _ _ _), _, _ => by
      intro p hp
      cases hp
  | .add _ _ (.factor _), h, _ => fun p hp => onlyPlus_reduceTop h.1 h.2.2 p hp
  | .add e .plus (.mul _ _ _), h, _ => by
      intro p hp
      rcases mem_cons.mp hp with rfl | hp
      · rfl
      · exact onlyPlus_reduceTop h.1 h.2.2 p hp
  | .add _ .minus (.mul _ _ _), _, hends => absurd trivial hends

mutual

theorem Expr.value_tree : ∀ e : Expr, e.NoBuriedMinus → e.tree.value = e.usualTree.value
  | .term t, h => by
      rw [Expr.tree, Expr.load, t.collapse_load]
      exact t.value_tree h
  | .add e op t, h => by
      rw [Expr.tree_add, collapse_node_of_onlyPlus (Expr.onlyPlus_reduceTop h.1 h.2.2),
        collapse_reduceTop, Expr.usualTree, Tree.value, Tree.value, t.value_tree h.2.1]
      rw [← e.value_tree h.1]
      rfl

theorem Term.value_tree : ∀ t : Term, t.NoBuriedMinus → t.tree.value = t.usualTree.value
  | .factor f, h => f.value_tree h
  | .mul t op f, h => by
      rw [Term.tree, Term.usualTree, Tree.value, Tree.value, t.value_tree h.1, f.value_tree h.2]

theorem Factor.value_tree : ∀ f : Factor, f.NoBuriedMinus → f.tree.value = f.usualTree.value
  | .digits _ _, _ => rfl
  | .paren e, h => e.value_tree h

end

/-! ### The result -/

/-- The result of a derivable string is the value of its tree. -/
theorem calculateExpression_render (e : Expr) : calculateExpression e.render = e.tree.value := by
  rw [calculateExpression_eq, readTrees_render]
  simp only [observe, values]
  cases e.tree.value <;> rfl

/-- The result is the usual value, and a division by zero is reported exactly if the usual
    evaluation divides by zero. -/
def Expr.EvaluatedAsUsual (e : Expr) : Prop :=
  (∀ x, e.eval = some x → ∃ result, calculateExpression e.render = .ok result ∧ result.toInt = x) ∧
    (calculateExpression e.render = .error .divisionByZero ↔ e.eval = none)

/-- An expression whose intermediate values fit is evaluated as usual exactly if the brackets of the
    evaluator do not change its value; they never do if no `-` in front of a product or quotient is
    followed by another `+` or `-` of the same group. -/
theorem evaluatedAsUsual_iff (e : Expr) (hfits : e.Fits) :
    (e.EvaluatedAsUsual ↔ e.regroup.usualTree.value = e.usualTree.value) ∧
      (e.NoBuriedMinus → e.EvaluatedAsUsual) := by
  have hiff : e.EvaluatedAsUsual ↔ e.tree.value = e.usualTree.value := by
    rw [Expr.EvaluatedAsUsual, calculateExpression_render, e.value_usualTree hfits]
    have hrange := e.inInt_of_fits hfits
    cases heval : e.eval with
    | none => simp [asResult]
    | some x =>
      have hx := hrange x heval
      constructor
      · rintro ⟨hvalue, -⟩
        obtain ⟨result, hresult, rfl⟩ := hvalue x rfl
        rw [hresult, asResult, Int32.ofInt_toInt]
      · intro hvalue
        rw [hvalue]
        refine ⟨?_, by simp [asResult]⟩
        rintro _ ⟨⟩
        exact ⟨Int32.ofInt x, rfl, Int32.toInt_ofInt_of_le hx.1 hx.2⟩
  rw [e.usualTree_regroup]
  exact ⟨hiff, fun hminus => hiff.mpr (e.value_tree hminus)⟩

/-- `first-2*3-4`. -/
def minusProductMinus (first : Term) : Expr :=
  .add (.add (.term first) .minus (.mul (.factor (.digits 2 [])) .times (.digits 3 []))) .minus
    (.factor (.digits 4 []))

/-- `1/0-2*3-4` is answered before the two readings differ. -/
theorem evaluatedAsUsual_iff_division :
    (minusProductMinus (.mul (.factor (.digits 1 [])) .dividedBy (.digits 0 []))).EvaluatedAsUsual := by
  refine (evaluatedAsUsual_iff _ ?_).1.mpr (by decide +kernel)
  simp [minusProductMinus, Expr.Fits, Term.Fits, Factor.Fits, InInt, Expr.eval, Term.eval,
    Factor.eval, naturalValue, AddOp.apply, MulOp.apply]

/-- `1-2*3-4` is evaluated as `1-(2*3-4)`. -/
theorem minusProductMinus_misread :
    (minusProductMinus (.factor (.digits 1 []))).render = "1-2*3-4".toList ∧
      (minusProductMinus (.factor (.digits 1 []))).Fits ∧
      (minusProductMinus (.factor (.digits 1 []))).eval = some (-9) ∧
      calculateExpression "1-2*3-4".toList = .ok (-1) := by
  refine ⟨by decide, ?_, by decide, by decide +kernel⟩
  simp [minusProductMinus, Expr.Fits, Term.Fits, Factor.Fits, InInt, Expr.eval, Term.eval,
    Factor.eval, naturalValue, AddOp.apply, MulOp.apply]

end NsuLabs.Calculator
