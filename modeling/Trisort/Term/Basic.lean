import Trisort.Relay
import Trisort.Variable
import Trisort.Universe
import Trisort.Double

/-!
# Terms

Terms and types are one syntactic class. A term is a constant, a variable, one of the two binding
forms, or built from subterms without binding anything. Constants have no variables in them, and the
two binding forms `λ(x : A) → b` and `∀(x : A) → B` bind in the same way, so each group has a single
constructor; `Term.lam`, `Term.pi` and `Term.univ` name the cases that the rules of the calculus
speak about.

Equality of terms is equality of their syntax, labels included. It is decidable (`Term.same_iff`).
-/

namespace Trisort

/-- Terms without variables and without subterms. -/
inductive Constant where
  | univ (u : Universe)
  | doubleType
  | double (x : Double)
  | boolType
  | bool (b : Bool)
  | naturalType
  | natural (n : UInt64)
  | integerType
  | integer (i : Int64)
  /-- The type constructor `List`. -/
  | listType
deriving DecidableEq

/-- The binding forms. -/
inductive Binder where
  | lambda
  | pi
deriving DecidableEq

/-- The arithmetic operations on naturals. -/
inductive Operation where
  | plus
  | times
deriving DecidableEq

/-- A term of the calculus. -/
inductive Term where
  | const (c : Constant)
  | var (v : Var)
  /-- A binding form. The label is in scope in the body and not in its own type. -/
  | binder (k : Binder) (x : Label) (type body : Term)
  | app (function argument : Term)
  /-- A term with its type written out. -/
  | annot (term type : Term)
  | arith (op : Operation) (left right : Term)
  /-- The empty list of elements of the given type. -/
  | nil (elementType : Term)
  /-- A list literal with at least one element. -/
  | list (head : Term) (tail : List Term)

namespace Operation

/-- The operation on natural numbers of any size. -/
def onNat : Operation → Nat → Nat → Nat
  | plus => (· + ·)
  | times => (· * ·)

/-- The operation on literals: none if the result needs more than sixty-four bits. -/
def eval? (op : Operation) (m n : UInt64) : Option UInt64 :=
  if op.onNat m.toNat n.toNat < UInt64.size then
    some (UInt64.ofNat (op.onNat m.toNat n.toNat))
  else none

/-- The sign of the operation. -/
def sign : Operation → String
  | plus => "+"
  | times => "*"

/-- A literal result is the exact result. -/
theorem eval?_eq_some_iff {op : Operation} {m n r : UInt64} :
    op.eval? m n = some r ↔ op.onNat m.toNat n.toNat = r.toNat := by
  have hr := r.toNat_lt_size
  unfold eval?
  split
  case isTrue h =>
    rw [Option.some.injEq, ← UInt64.toNat_inj, UInt64.toNat_ofNat_of_lt' h]
  case isFalse h =>
    simp only [reduceCtorEq, false_iff]
    omega

/-- An operation has no literal result exactly if the exact result is too large. -/
theorem eval?_eq_none_iff {op : Operation} {m n : UInt64} :
    op.eval? m n = none ↔ UInt64.size ≤ op.onNat m.toNat n.toNat := by
  unfold eval?
  split <;> simp <;> omega

end Operation

namespace Term

/-! ### The cases the rules speak about -/

/-- `λ(x : A) → b`. -/
@[match_pattern] abbrev lam (x : Label) (A b : Term) : Term := .binder .lambda x A b

/-- `∀(x : A) → B`. -/
@[match_pattern] abbrev pi (x : Label) (A B : Term) : Term := .binder .pi x A B

/-- A universe as a term. -/
@[match_pattern] abbrev univ (u : Universe) : Term := .const (.univ u)

/-- A natural literal. -/
@[match_pattern] abbrev natural (n : UInt64) : Term := .const (.natural n)

/-- The universe that a term is, if it is one. -/
def univ? : Term → Option Universe
  | .univ u => some u
  | _ => none

/-- The type of the lists of elements of type `A`. -/
def listOf (A : Term) : Term := .app (.const .listType) A

/-- A term is recognized as a universe exactly if it is one. -/
@[simp] theorem univ?_eq_some_iff {t : Term} {u : Universe} :
    t.univ? = some u ↔ t = .univ u := by
  unfold univ?
  split <;> simp_all

/-! ### Induction -/

/-- Induction on terms. The elements of a list literal are subterms of it. -/
@[elab_as_elim, induction_eliminator]
theorem induct {motive : Term → Prop}
    (const : ∀ c, motive (.const c))
    (var : ∀ v, motive (.var v))
    (binder : ∀ k x A b, motive A → motive b → motive (.binder k x A b))
    (app : ∀ f a, motive f → motive a → motive (.app f a))
    (annot : ∀ e A, motive e → motive A → motive (.annot e A))
    (arith : ∀ op l r, motive l → motive r → motive (.arith op l r))
    (nil : ∀ A, motive A → motive (.nil A))
    (list : ∀ e es, motive e → (∀ e' ∈ es, motive e') → motive (.list e es))
    (t : Term) : motive t := by
  refine @Term.rec motive (fun es => ∀ e ∈ es, motive e) const var binder app annot arith nil
    list ?_ ?_ t
  · simp
  · rintro e es he hes e' (_ | ⟨_, h⟩)
    · exact he
    · exact hes e' h

/-! ### Size -/

mutual

/-- The number of constructors in a term. The names and indices of variables do not count. -/
def size : Term → Nat
  | .const _ | .var _ => 1
  | .binder _ _ A b => A.size + b.size + 1
  | .app f a => f.size + a.size + 1
  | .annot e A => e.size + A.size + 1
  | .arith _ l r => l.size + r.size + 1
  | .nil A => A.size + 1
  | .list e es => e.size + sizeAll es + 1

/-- The number of constructors in a list of terms. -/
def sizeAll : List Term → Nat
  | [] => 0
  | e :: es => e.size + sizeAll es + 1

end

/-- An element is smaller than the list it belongs to. -/
theorem size_lt_sizeAll {e : Term} {es : List Term} (h : e ∈ es) : e.size < sizeAll es := by
  induction h with
  | head es =>
    rw [sizeAll]
    omega
  | tail e' _ ih =>
    rw [sizeAll]
    omega

/-- Induction on terms in which the body of a binder may be exchanged for any term of its size. -/
@[elab_as_elim]
theorem inductSize {motive : Term → Prop}
    (const : ∀ c, motive (.const c))
    (var : ∀ v, motive (.var v))
    (binder : ∀ k x A b, motive A → (∀ b' : Term, b'.size = b.size → motive b') →
      motive (.binder k x A b))
    (app : ∀ f a, motive f → motive a → motive (.app f a))
    (annot : ∀ e A, motive e → motive A → motive (.annot e A))
    (arith : ∀ op l r, motive l → motive r → motive (.arith op l r))
    (nil : ∀ A, motive A → motive (.nil A))
    (list : ∀ e es, motive e → (∀ e' ∈ es, motive e') → motive (.list e es))
    (t : Term) : motive t := by
  induction hn : t.size using Nat.strongRecOn generalizing t with
  | _ n ih =>
    subst hn
    cases t with
    | const c => exact const c
    | var v => exact var v
    | binder k x A b =>
      refine binder k x A b (ih _ ?_ A rfl) fun b' hb' => ih _ ?_ b' rfl
      · simp only [size]
        omega
      · simp only [size]
        omega
    | app f a =>
      refine app f a (ih _ ?_ f rfl) (ih _ ?_ a rfl)
      · simp only [size]
        omega
      · simp only [size]
        omega
    | annot e A =>
      refine annot e A (ih _ ?_ e rfl) (ih _ ?_ A rfl)
      · simp only [size]
        omega
      · simp only [size]
        omega
    | arith op l r =>
      refine arith op l r (ih _ ?_ l rfl) (ih _ ?_ r rfl)
      · simp only [size]
        omega
      · simp only [size]
        omega
    | nil A =>
      refine nil A (ih _ ?_ A rfl)
      simp only [size]
      omega
    | list e es =>
      refine list e es (ih _ ?_ e rfl) fun e' he' => ih _ ?_ e' rfl
      · simp only [size]
        omega
      · have := size_lt_sizeAll he'
        simp only [size]
        omega

/-! ### Equality -/

mutual

/-- Whether two terms met at nesting depth `d` are the same. -/
def sameFrom (d : Nat) : Term → Term → Bool
  | .const c, .const c' => c == c'
  | .var v, .var v' => v == v'
  | .binder k x A b, .binder k' x' A' b' =>
    k == k' && x == x' && (relay d fun _ => sameFrom (d + 1) A A') &&
      relay d fun _ => sameFrom (d + 1) b b'
  | .app f a, .app f' a' =>
    (relay d fun _ => sameFrom (d + 1) f f') && relay d fun _ => sameFrom (d + 1) a a'
  | .annot e A, .annot e' A' =>
    (relay d fun _ => sameFrom (d + 1) e e') && relay d fun _ => sameFrom (d + 1) A A'
  | .arith op l r, .arith op' l' r' =>
    op == op' && (relay d fun _ => sameFrom (d + 1) l l') &&
      relay d fun _ => sameFrom (d + 1) r r'
  | .nil A, .nil A' => relay d fun _ => sameFrom (d + 1) A A'
  | .list e es, .list e' es' =>
    (relay d fun _ => sameFrom (d + 1) e e') && relay d fun _ => sameAllFrom (d + 1) es es'
  | _, _ => false

/-- Whether two lists of terms met at nesting depth `d` are the same. -/
def sameAllFrom (d : Nat) : List Term → List Term → Bool
  | [], [] => true
  | e :: es, e' :: es' =>
    (relay d fun _ => sameFrom (d + 1) e e') && relay d fun _ => sameAllFrom (d + 1) es es'
  | _, _ => false

end

/-- Whether two terms are written the same way. -/
def same (t u : Term) : Bool := sameFrom 0 t u

/-- Comparing lists of terms decides their equality, if comparing the elements does. -/
theorem sameAllFrom_iff {es es' : List Term}
    (h : ∀ e ∈ es, ∀ d e', sameFrom d e e' = true ↔ e = e') (d : Nat) :
    sameAllFrom d es es' = true ↔ es = es' := by
  induction es generalizing es' d with
  | nil => cases es' <;> simp [sameAllFrom]
  | cons e es ih =>
    cases es' with
    | nil => simp [sameAllFrom]
    | cons e' es' =>
      simp [sameAllFrom, h e (by simp), ih fun e he => h e (by simp [he])]

/-- Comparing terms decides their equality, whatever the nesting depth. -/
theorem sameFrom_iff (d : Nat) (t u : Term) : sameFrom d t u = true ↔ t = u := by
  induction t generalizing d u with
  | const c => cases u <;> simp [sameFrom]
  | var v => cases u <;> simp [sameFrom]
  | binder k x A b ihA ihb => cases u <;> simp [sameFrom, ihA, ihb, and_assoc]
  | app f a ihf iha => cases u <;> simp [sameFrom, ihf, iha]
  | annot e A ihe ihA => cases u <;> simp [sameFrom, ihe, ihA]
  | arith op l r ihl ihr => cases u <;> simp [sameFrom, ihl, ihr, and_assoc]
  | nil A ihA => cases u <;> simp [sameFrom, ihA]
  | list e es ihe ihes =>
    cases u <;> simp [sameFrom, ihe, sameAllFrom_iff fun e he d e' => ihes e he d e']

/-- Comparing terms decides their equality. -/
theorem same_iff {t u : Term} : t.same u = true ↔ t = u := sameFrom_iff 0 t u

/-- Equality of terms is decided by `Term.same`. -/
instance : DecidableEq Term := fun _ _ => decidable_of_iff _ same_iff

end Term

end Trisort
