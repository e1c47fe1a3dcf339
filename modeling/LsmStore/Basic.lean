import Mathlib.Data.Fin.Basic
import Mathlib.Data.List.Lex
import Mathlib.Order.Lattice
import Mathlib.Tactic

/-!
# Keys, values, write operations and outcomes

The data every part of the store shares.  Keys and values are byte vectors,
compared byte by byte as Rust compares `[u8]`; a write is a put or a delete.

A function of the source may return, return an error, panic, or never return.
`Outcome` keeps the four apart, so that a statement about a returned value
says that the function does return.
-/

namespace LsmStore

/-- A byte vector.  The allocator never hands out more than `isize::MAX` bytes. -/
structure ByteVec where
  data : List UInt8
  length_lt : data.length < 2 ^ 63
deriving DecidableEq

namespace ByteVec

@[ext] theorem ext
    {a b : ByteVec}
    (h : a.data = b.data) :
    a = b := by
  cases a
  cases b
  simp_all

/-- The bytes as numbers, for the lexicographic comparison. -/
def rank (b : ByteVec) : List (Fin 256) :=
  b.data.map UInt8.toFin

theorem rank_injective : Function.Injective rank := by
  intro a b h
  apply ByteVec.ext
  exact List.map_injective_iff.mpr (fun x y hxy => UInt8.toFin_inj.mp hxy) h

/-- Byte vectors are ordered lexicographically, a proper prefix first. -/
instance : LinearOrder ByteVec :=
  LinearOrder.lift' rank rank_injective

/-- Number of bytes. -/
def len (b : ByteVec) : Nat :=
  b.data.length

/-- A byte vector from a buffer; buffers are never longer than the allocator allows. -/
def ofList (bytes : List UInt8) : ByteVec where
  data := bytes.take (2 ^ 63 - 1)
  length_lt := by
    rw [List.length_take]
    omega

theorem ofList_data
    (b : ByteVec) :
    ofList b.data = b := by
  apply ByteVec.ext
  have hlt := b.length_lt
  exact List.take_of_length_le (by omega)

end ByteVec

abbrev Key := ByteVec

abbrev Value := ByteVec

/-- One operation of a write batch. -/
inductive WriteOp where
  | put (key : Key) (value : Value)
  | delete (key : Key)
deriving DecidableEq

namespace WriteOp

def putOp : UInt8 := 1

def deleteOp : UInt8 := 2

def getKey : WriteOp → Key
  | put key _ => key
  | delete key => key

def getType : WriteOp → UInt8
  | put _ _ => putOp
  | delete _ => deleteOp

def getKeyLength (op : WriteOp) : Nat :=
  op.getKey.len

end WriteOp

/-- Errors the store reports to its caller. -/
inductive Error where
  | io (context message : String)
  | invalidParams (message : String)
  | serialization (message : String)
deriving DecidableEq

/-- The message of the operating system for a missing file. -/
def notFound : String :=
  "No such file or directory (os error 2)"

/-- What became of a call: `unfinished` stands for a call that is still running. -/
inductive Outcome (α : Type) where
  | value (a : α)
  | error (e : Error)
  | panic (message : String)
  | unfinished
deriving DecidableEq

namespace Outcome

variable {α β : Type}

/-- Sequencing; everything but a returned value ends the caller as well. -/
def bind : Outcome α → (α → Outcome β) → Outcome β
  | value a, f => f a
  | error e, _ => error e
  | panic message, _ => panic message
  | unfinished, _ => unfinished

instance : Monad Outcome where
  pure := value
  bind := bind

@[simp] theorem pure_eq
    (a : α) :
    (pure a : Outcome α) = value a :=
  rfl

@[simp] theorem value_bind
    (a : α) (f : α → Outcome β) :
    (value a >>= f) = f a :=
  rfl

@[simp] theorem error_bind
    (e : Error) (f : α → Outcome β) :
    (error e >>= f) = error e :=
  rfl

@[simp] theorem panic_bind
    (message : String) (f : α → Outcome β) :
    (panic message >>= f) = panic message :=
  rfl

theorem bind_assoc
    {γ : Type} (o : Outcome α) (f : α → Outcome β) (g : β → Outcome γ) :
    (o >>= f >>= g) = (o >>= fun a => f a >>= g) := by
  cases o with
  | value a =>
      rfl
  | error e =>
      rfl
  | panic message =>
      rfl
  | unfinished =>
      rfl

theorem bind_eq_value
    {o : Outcome α} {f : α → Outcome β} {b : β}
    (h : (o >>= f) = value b) :
    ∃ a, o = value a ∧ f a = value b := by
  cases o with
  | value a =>
      exact ⟨a, rfl, h⟩
  | error e =>
      cases h
  | panic message =>
      cases h
  | unfinished =>
      cases h

/-- A call that was followed longer: it was still running, or nothing changes. -/
def Le (o o' : Outcome α) : Prop :=
  o = unfinished ∨ o = o'

theorem Le.refl
    (o : Outcome α) :
    Le o o :=
  Or.inr rfl

theorem Le.eq_of_ne
    {o o' : Outcome α}
    (h : Le o o')
    (hne : o ≠ unfinished) :
    o' = o := by
  rcases h with h | h
  · exact absurd h hne
  · exact h.symm

/-- Following both parts of a sequence longer follows the sequence longer. -/
theorem Le.bind
    {o o' : Outcome α} {f g : α → Outcome β}
    (h : Le o o')
    (hfg : ∀ a, Le (f a) (g a)) :
    Le (o >>= f) (o' >>= g) := by
  rcases h with rfl | rfl
  · exact Or.inl rfl
  · cases o with
    | value a =>
        exact hfg a
    | error e =>
        exact Le.refl _
    | panic message =>
        exact Le.refl _
    | unfinished =>
        exact Le.refl _

/-- Two calls end in the same way, with related values. -/
inductive Rel (R : α → β → Prop) : Outcome α → Outcome β → Prop where
  | value {a : α} {b : β} (h : R a b) : Rel R (.value a) (.value b)
  | error (e : Error) : Rel R (.error e) (.error e)
  | panic (message : String) : Rel R (.panic message) (.panic message)
  | unfinished : Rel R .unfinished .unfinished

theorem Rel.refl
    (o : Outcome α) :
    Rel (fun a b => o = .value a ∧ a = b) o o := by
  cases o with
  | value a =>
      exact .value ⟨rfl, rfl⟩
  | error e =>
      exact .error e
  | panic message =>
      exact .panic message
  | unfinished =>
      exact .unfinished

theorem Rel.bind
    {α' β' : Type} {R : α → β → Prop} {S : α' → β' → Prop} {o : Outcome α} {o' : Outcome β}
    {f : α → Outcome α'} {g : β → Outcome β'}
    (h : Rel R o o')
    (hfg : ∀ a b, R a b → Rel S (f a) (g b)) :
    Rel S (o >>= f) (o' >>= g) := by
  cases h with
  | value hab =>
      exact hfg _ _ hab
  | error e =>
      exact .error e
  | panic message =>
      exact .panic message
  | unfinished =>
      exact .unfinished

/-- A call whose result the other side still wraps up. -/
theorem Rel.wrap
    {γ : Type} {R : α → β → Prop} {S : α → γ → Prop} {o : Outcome α} {o' : Outcome β}
    {g : β → γ}
    (h : Rel R o o')
    (hg : ∀ a b, R a b → S a (g b)) :
    Rel S o (o' >>= fun b => .value (g b)) := by
  cases h with
  | value hab =>
      exact .value (hg _ _ hab)
  | error e =>
      exact .error e
  | panic message =>
      exact .panic message
  | unfinished =>
      exact .unfinished

end Outcome

end LsmStore
