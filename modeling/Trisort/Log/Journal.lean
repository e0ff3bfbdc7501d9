import Trisort.Relay

/-!
# Computations that record events

`Logged ω ε α` is a computation that records events of type `ω` and then ends with a value of type
`α` or a failure of type `ε`; the events recorded before a failure remain. The events are kept in a
`Journal`, which joins two records in constant time and reads as a list.
-/

namespace Trisort.Log

/-- A sequence of events. -/
inductive Journal (ω : Type) where
  | empty
  | entry (e : ω)
  | join (first second : Journal ω)

namespace Journal

variable {ω : Type}

/-- One journal after the other. -/
def append : Journal ω → Journal ω → Journal ω
  | .empty, k => k
  | j, .empty => j
  | j, k => .join j k

/-- The events of a journal met at nesting depth `d`, followed by others. -/
def toListFrom (d : Nat) : Journal ω → List ω → List ω
  | .empty, rest => rest
  | .entry e, rest => e :: rest
  | .join j k, rest =>
    relay d fun _ => toListFrom (d + 1) j (relay d fun _ => toListFrom (d + 1) k rest)

/-- The events in the order in which they were recorded. -/
def toList (j : Journal ω) : List ω := toListFrom 0 j []

/-- The nesting depth has no influence: the entries come in order, in front of the rest. -/
theorem toListFrom_eq (d : Nat) (j : Journal ω) (rest : List ω) :
    toListFrom d j rest = j.toList ++ rest := by
  induction j generalizing d rest with
  | empty => rfl
  | entry e => rfl
  | join j k ihj ihk =>
    rw [toList, toListFrom, toListFrom]
    simp only [relay_eq, ihj, ihk, List.append_nil, List.append_assoc]

@[simp] theorem toList_empty : (empty : Journal ω).toList = [] := rfl

@[simp] theorem toList_entry (e : ω) : (entry e).toList = [e] := rfl

/-- The entries of a join are those of its left part and then those of its right part. -/
@[simp] theorem toList_join (j k : Journal ω) : (join j k).toList = j.toList ++ k.toList := by
  rw [toList, toListFrom]
  simp only [relay_eq, toListFrom_eq, List.append_nil]

/-- Appending journals appends their entries. -/
@[simp] theorem toList_append (j k : Journal ω) :
    (j.append k).toList = j.toList ++ k.toList := by
  unfold append
  split <;> simp

end Journal

/-- A computation that records events and may fail. -/
structure Logged (ω ε α : Type) where
  journal : Journal ω
  result : Except ε α

namespace Logged

variable {ω ε α β : Type}

/-- Ends with a value, recording nothing. -/
def value (a : α) : Logged ω ε α := ⟨.empty, .ok a⟩

/-- Fails, recording nothing. -/
def fail (e : ε) : Logged ω ε α := ⟨.empty, .error e⟩

/-- Records one event. -/
def record (e : ω) : Logged ω ε Unit := ⟨.entry e, .ok ()⟩

/-- Goes on with a value unless there was a failure. -/
@[inline] def andThen (x : Logged ω ε α) (f : α → Logged ω ε β) : Logged ω ε β :=
  match x with
  | ⟨j, .ok a⟩ =>
    let y := f a
    ⟨j.append y.journal, y.result⟩
  | ⟨j, .error e⟩ => ⟨j, .error e⟩

/-- Computations that record events are run one after the other, until one of them fails. -/
instance : Monad (Logged ω ε) where
  pure := value
  bind := andThen

/-- A computation that records nothing. -/
def ofExcept (x : Except ε α) : Logged ω ε α := ⟨.empty, x⟩

/-- The same computation with its failures seen as failures of another kind. -/
def mapFailure {ε' : Type} (f : ε → ε') (x : Logged ω ε α) : Logged ω ε' α :=
  ⟨x.journal, x.result.mapError f⟩

/-- Does the same with every element of a list, from left to right. -/
def mapList (f : α → Logged ω ε β) : List α → Logged ω ε (List β)
  | [] => value []
  | a :: as => do
    let b ← f a
    let bs ← mapList f as
    return b :: bs

/-- The events recorded, in order. -/
def events (x : Logged ω ε α) : List ω := x.journal.toList

/-! ### What each operation does to result and events -/

@[simp] theorem result_pure (a : α) : (pure a : Logged ω ε α).result = .ok a := rfl

/-- The results of a sequence are those of its parts run in sequence. -/
@[simp] theorem result_bind (x : Logged ω ε α) (f : α → Logged ω ε β) :
    (x >>= f).result = x.result >>= fun a => (f a).result := by
  rcases x with ⟨j, e | a⟩ <;> rfl

@[simp] theorem result_value (a : α) : (value a : Logged ω ε α).result = .ok a := rfl

@[simp] theorem result_fail (e : ε) : (fail e : Logged ω ε α).result = .error e := rfl

@[simp] theorem result_record (e : ω) : (record e : Logged ω ε Unit).result = .ok () := rfl

@[simp] theorem result_ofExcept (x : Except ε α) : (ofExcept x : Logged ω ε α).result = x := rfl

@[simp] theorem result_mapFailure {ε' : Type} (f : ε → ε') (x : Logged ω ε α) :
    (x.mapFailure f).result = x.result.mapError f := rfl

@[simp] theorem events_pure (a : α) : (pure a : Logged ω ε α).events = [] := rfl

@[simp] theorem events_value (a : α) : (value a : Logged ω ε α).events = [] := rfl

/-- If its first part succeeds, a sequence records the events of both parts, in order. -/
theorem events_bind_of_ok {x : Logged ω ε α} {a : α} (h : x.result = .ok a)
    (f : α → Logged ω ε β) : (x >>= f).events = x.events ++ (f a).events := by
  rcases x with ⟨j, e | b⟩
  · simp at h
  · obtain rfl : b = a := by simpa using h
    exact Journal.toList_append j (f b).journal

/-- If its first part fails, a sequence records the events of that part only. -/
theorem events_bind_of_error {x : Logged ω ε α} {e : ε} (h : x.result = .error e)
    (f : α → Logged ω ε β) : (x >>= f).events = x.events := by
  rcases x with ⟨j, e | b⟩
  · rfl
  · simp at h

@[simp] theorem events_fail (e : ε) : (fail e : Logged ω ε α).events = [] := rfl

@[simp] theorem events_record (e : ω) : (record e : Logged ω ε Unit).events = [e] := rfl

@[simp] theorem events_ofExcept (x : Except ε α) : (ofExcept x : Logged ω ε α).events = [] := rfl

@[simp] theorem events_mapFailure {ε' : Type} (f : ε → ε') (x : Logged ω ε α) :
    (x.mapFailure f).events = x.events := rfl

end Logged

end Trisort.Log
