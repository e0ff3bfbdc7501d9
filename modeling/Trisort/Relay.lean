/-!
# Recursion deeper than one stack

Terms may be nested far deeper than the stack of a single thread allows. `relay n f` is `f ()`; at
regular values of the counter `n` the call is made on a fresh thread, whose stack is empty. A
recursion that hands each of its calls, together with a counter that changes by one per level, to
`relay` can therefore go as deep as memory allows.

The counter and the thread are invisible to reasoning: `relay_eq` removes both.
-/

namespace Trisort

/-- The value of `f ()`, computed on a thread of its own. -/
@[noinline] def onFreshStack {α : Type} (f : Unit → α) : α :=
  (Task.spawn f .dedicated).get

/-- How many levels of a recursion share one stack. -/
def levelsPerStack : Nat := 4096

/-- The value of `f ()`. The counter `n` says how deep the caller is; whenever it passes the middle
of a block of `levelsPerStack` levels, the computation moves to a fresh stack. Counters that stay
below half a block never leave the current thread. -/
@[inline] def relay {α : Type} (n : Nat) (f : Unit → α) : α :=
  if n % levelsPerStack = levelsPerStack / 2 then onFreshStack f else f ()

/-- Relaying a computation does not change its value. -/
@[simp] theorem relay_eq {α : Type} (n : Nat) (f : Unit → α) : relay n f = f () := by
  unfold relay onFreshStack
  split <;> rfl

end Trisort
