import Fastbook.Support.Chain

/-!
# Intrusive stacks

A model of `TreiberStack` (`common/treiber_stack.hpp`), each operation taken as
one atomic step.  The stack itself is its head; the links are in the nodes, in
the field `next`.  The tag that is packed with the head only serves the
compare-and-exchange and is left out.
-/

namespace Fastbook.TreiberStack

open Support

variable {P : Type*} [DecidableEq P]

/-- The node that is returned and the head after the call. -/
def pop (next : P → Option P) (head : Option P) : Option P × Option P :=
  match head with
  | none => (none, none)
  | some n => (some n, next n)

/-- The links and the head after the call.  A `push` is that of a chain of one
node. -/
def pushChain (next : P → Option P) (head : Option P) (first last : P) :
    (P → Option P) × Option P :=
  (Function.update next last head, some first)

def takeAll (head : Option P) : Option P × Option P :=
  (head, none)

variable {next : P → Option P} {head : Option P} {l l' : List P} {first last : P}

theorem chain_pushChain (h : Chain next head l) (h' : Chain next (some first) l')
    (hnodup : l'.Nodup) (hlast : l'.getLast? = some last) (hmem : last ∉ l) :
    Chain (pushChain next head first last).1 (pushChain next head first last).2
      (l' ++ l) :=
  h'.append h hnodup hlast hmem

end Fastbook.TreiberStack
