import Fastbook.Feed.McastUDPSource
import Fastbook.Support.Handles
import Fastbook.Support.TransitionSystem

/-!
# The buffers of the multicast source

The source together with a caller that keeps `Buffer` objects, as many as it
likes, and moves and destroys them in any order.  In every state that they reach,
each datagram buffer of the pool is in one place, and the datagrams are served in
the order in which they were received.
-/

namespace Fastbook

open Support

namespace McastUDPSource

/-- The source, the `Buffer` objects of the caller by their names, and what has
been received and served.  An object that holds no datagram is `some none`. -/
structure Session where
  source : McastUDPSource
  buffers : ℕ → Option (Option Ptr) := fun _ => none
  received : List (List UInt8) := []
  served : List (List UInt8) := []

inductive Action where
  /-- The result of `next()`, if there is one, becomes the object `name`. -/
  | next (name : ℕ) (socket : Socket)
  | destroy (name : ℕ)
  /-- The move constructor. -/
  | construct (name other : ℕ)
  /-- The move assignment. -/
  | assign (name rhs : ℕ)

/-- The bytes of a `Buffer`. -/
def bytes (s : McastUDPSource) : Option Ptr → List UInt8
  | none => []
  | some d => (s.pool.storage d).bytes

namespace Session

def next (s : Session) (name : ℕ) (socket : Socket) : Session :=
  let o := s.source.next socket
  let received := match o.offered with
    | none => s.received
    | some k => s.received ++ (socket.recvmmsg k).payloads
  match o.result with
  | .error _ => { s with source := o.source, received }
  | .ok d =>
    { source := o.source
      buffers := Function.update s.buffers name (some d)
      received
      served := s.served ++ [o.source.bytes d] }

/-- `~Buffer`. -/
def destroy (s : Session) (name : ℕ) (dgram : Option Ptr) : Session :=
  let buffers := Function.update s.buffers name none
  match dgram with
  | none => { s with buffers }
  | some d =>
    { s with
      source := { s.source with pool := s.source.pool.restore Datagram.reset (some d) }
      buffers }

def step (s : Session) : Action → Option Session
  | .next name socket =>
    match s.buffers name with
    | some _ => none
    | none => some (s.next name socket)
  | .destroy name =>
    match s.buffers name with
    | none => none
    | some dgram => some (s.destroy name dgram)
  | .construct name other =>
    match s.buffers name, s.buffers other with
    | none, some dgram =>
      let moved := Function.update s.buffers other (some none)
      some { s with buffers := Function.update moved name (some dgram) }
    | _, _ => none
  | .assign name rhs =>
    match s.buffers name, s.buffers rhs with
    | some dgram, some dgram' =>
      let moved := Function.update s.buffers name (some dgram')
      some { s with buffers := Function.update moved rhs (some dgram) }
    | _, _ => none

end Session

/-- The runs of a new source, whose objects have any contents. -/
def sessions (objects : Ptr → Datagram) : TransitionSystem Session Action where
  start := { source := { pool := .new objects } }
  step := Session.step

/-! ## Places -/

inductive Place where
  | free
  /-- Received and not yet served. -/
  | pending
  | buffer (name : ℕ)
  deriving DecidableEq

/-- The places of the batch that are to be served. -/
def waiting (s : McastUDPSource) : List ℕ :=
  List.range' s.nextMsg (s.msgsReceived - s.nextMsg)

def Session.loc (s : Session) : Place → List Ptr
  | .free => s.source.pool.free
  | .pending => s.source.waiting.filterMap s.source.batch
  | .buffer name => (s.buffers name).join.toList

/-- The invariant of the runs. -/
structure Session.Inv (s : Session) : Prop where
  placed : Partition s.loc
  /-- No place that is to be served is stale. -/
  filled : ∀ j ∈ s.source.waiting, (s.source.batch j).isSome
  order : s.received = s.served ++ s.source.waiting.map s.source.slot

/-- The datagrams that a call of `next` receives. -/
def Session.incoming (s : Session) (socket : Socket) : List (List UInt8) :=
  if s.source.nextMsg < s.source.msgsReceived ∨ s.source.pool.free = [] then []
  else (socket.recvmmsg (s.source.pool.free.take vlen).length).payloads

/-- The first of the datagrams that are there becomes a new `Buffer`. -/
def Session.Handed (s s' : Session) (name : ℕ) : List (List UInt8) → Prop
  | [] => s'.buffers = s.buffers ∧ s'.served = s.served
  | datagram :: rest => ∃ d,
    s'.buffers = Function.update s.buffers name (some (some d)) ∧
    s'.source.bytes (some d) = datagram ∧
    s'.served = s.served ++ [datagram] ∧ s'.source.waiting.map s'.source.slot = rest

/-- What a step does.  A `Buffer` that is destroyed gives its datagram back to
the pool, and moving exchanges the datagrams of two. -/
def Session.Effect (s s' : Session) : Action → Prop
  | .next name socket =>
    s'.received = s.received ++ s.incoming socket ∧
    s.Handed s' name (s.source.waiting.map s.source.slot ++ s.incoming socket)
  | .destroy name =>
    s'.buffers = Function.update s.buffers name none ∧
    s'.loc .free = s.loc (.buffer name) ++ s.loc .free ∧
    s'.loc .pending = s.loc .pending ∧
    s'.received = s.received ∧ s'.served = s.served
  | .construct name other | .assign name other =>
    s'.source = s.source ∧
    (∀ p, s'.loc p = s.loc (Equiv.swap (.buffer name) (.buffer other) p)) ∧
    s'.received = s.received ∧ s'.served = s.served

theorem waiting_of_lt {s : McastUDPSource} (h : s.nextMsg < s.msgsReceived) :
    s.waiting = s.nextMsg ::
      List.range' (s.nextMsg + 1) (s.msgsReceived - (s.nextMsg + 1)) := by
  rw [waiting, ← List.range'_succ]
  congr 1
  omega

theorem waiting_of_le {s : McastUDPSource} (h : s.msgsReceived ≤ s.nextMsg) :
    s.waiting = [] := by
  rw [waiting, Nat.sub_eq_zero_of_le h]
  rfl

/-! ## One call of `next` -/

section Fill

variable (batch : ℕ → Option Ptr) (taken : List Ptr)

theorem map_fill :
    (List.range' 0 taken.length).map (fill batch 0 taken) = taken.map some := by
  apply List.ext_getElem
  · simp
  · intro j hj hj'
    have hlt : j < taken.length := by simpa using hj'
    rw [List.getElem_map, List.getElem_map, List.getElem_range', Nat.zero_add,
      Nat.one_mul, fill_of_lt hlt]

theorem filterMap_eq_of_map_eq {f : ℕ → Option Ptr} {l : List ℕ} {m : List Ptr}
    (h : l.map f = m.map some) : l.filterMap f = m := by
  have hid := congrArg (List.filterMap id) h
  rwa [List.filterMap_map, List.filterMap_map, Function.id_comp, Function.id_comp,
    List.filterMap_some] at hid

theorem filterMap_fill_take {n : ℕ} (h : n ≤ taken.length) :
    (List.range' 0 n).filterMap (fill batch 0 taken) = taken.take n := by
  apply filterMap_eq_of_map_eq
  rw [← List.take_range'_of_length_ge h, List.map_take, map_fill, List.map_take]

theorem filterMap_fill_drop (n : ℕ) :
    (List.range' n (taken.length - n)).filterMap (fill batch 0 taken) =
      taken.drop n := by
  apply filterMap_eq_of_map_eq
  have hdrop : (List.range' 0 taken.length).drop n =
      List.range' n (taken.length - n) := by
    rw [List.drop_range', Nat.mul_one, Nat.zero_add]
  rw [← hdrop, List.map_drop, map_fill, List.map_drop]

end Fill

/-- What a batch of received datagrams looks like before the first is served. -/
structure Fetched (s s' : McastUDPSource) (payloads : List (List UInt8)) : Prop where
  nextMsg : s'.nextMsg = 0
  msgsReceived : s'.msgsReceived = payloads.length
  nonempty : payloads ≠ []
  filled : ∀ j ∈ s'.waiting, (s'.batch j).isSome
  slots : s'.waiting.map s'.slot = payloads
  free : s.pool.free.Perm (s'.waiting.filterMap s'.batch ++ s'.pool.free)

/-- The state in which `recvmmsg` has been called and the rest of the offered
buffers is back in the pool. -/
def fetch (s : McastUDPSource) (payloads : List (List UInt8)) : McastUDPSource :=
  let k := (s.pool.free.take vlen).length
  let nrecv := payloads.length
  let s := (s.refill.1.deliver 0 payloads).releaseRange nrecv (k - nrecv)
  { s with msgsReceived := nrecv, nextMsg := 0 }

theorem fetched_fetch {s : McastUDPSource} {payloads : List (List UInt8)}
    (hnodup : s.pool.free.Nodup) (hne : payloads ≠ [])
    (hle : payloads.length ≤ (s.pool.free.take vlen).length) :
    Fetched s (s.fetch payloads) payloads := by
  have hwaiting : (s.fetch payloads).waiting = List.range' 0 payloads.length := rfl
  have hbatch : (s.fetch payloads).batch = fill s.batch 0 (s.pool.free.take vlen) := by
    simp [fetch, refill_eq]
  have htaken : (s.pool.free.take vlen).Nodup := hnodup.sublist (List.take_sublist _ _)
  have hfill : ∀ j, j < payloads.length → ∃ h : j < (s.pool.free.take vlen).length,
      fill s.batch 0 (s.pool.free.take vlen) j = some (s.pool.free.take vlen)[j] :=
    fun j hj => ⟨by omega, fill_of_lt (by omega)⟩
  refine ⟨rfl, rfl, hne, ?_, ?_, ?_⟩
  · intro j hj
    rw [hwaiting, List.mem_range'_1] at hj
    obtain ⟨_, heq⟩ := hfill j (by omega)
    rw [hbatch, heq]
    rfl
  · have hslot : ∀ j, (s.fetch payloads).slot j =
        (s.refill.1.deliver 0 payloads).slot j := by
      intro j
      apply slot_congr
      · simp [fetch]
      · simp [fetch]
      · intro d
        simp [fetch]
    rw [hwaiting, funext hslot]
    apply map_slot_deliver
    · intro j _ hj
      obtain ⟨_, heq⟩ := hfill j (by omega)
      rw [refill_eq]
      dsimp only
      rw [heq]
      rfl
    · intro j j' _ hlt hj'
      obtain ⟨hj, heq⟩ := hfill j (by omega)
      obtain ⟨hj', heq'⟩ := hfill j' (by omega)
      rw [refill_eq]
      dsimp only
      rw [heq, heq']
      intro hsame
      have hindex := (htaken.getElem_inj_iff).mp (Option.some.inj hsame)
      omega
  · have hfree : (s.fetch payloads).pool.free =
        ((s.pool.free.take vlen).drop payloads.length).reverse ++
          s.pool.free.drop vlen := by
      simp only [fetch, releaseRange_free, deliver_batch, deliver_free, refill_eq]
      rw [filterMap_fill_drop]
    have hsplit : s.pool.free =
        (s.pool.free.take vlen).take payloads.length ++
          ((s.pool.free.take vlen).drop payloads.length ++ s.pool.free.drop vlen) := by
      rw [← List.append_assoc, List.take_append_drop, List.take_append_drop]
    rw [hwaiting, hbatch, filterMap_fill_take _ _ hle, hfree]
    nth_rewrite 1 [hsplit]
    exact ((List.reverse_perm _).symm.append_right _).append_left _

/-- After a call of `recvmmsg` without datagrams the pool is as full as before. -/
theorem releaseRange_refill_free (s : McastUDPSource) :
    (s.refill.1.releaseRange 0 (s.pool.free.take vlen).length).pool.free.Perm
      s.pool.free := by
  have hall := filterMap_fill_drop s.batch (s.pool.free.take vlen) 0
  rw [Nat.sub_zero, List.drop_zero] at hall
  rw [releaseRange_free, refill_eq]
  dsimp only
  rw [hall]
  nth_rewrite 3 [← List.take_append_drop vlen s.pool.free]
  exact (List.reverse_perm _).append_right _

/-- All that a call of `next` can do. -/
theorem next_cases (s : McastUDPSource) (socket : Socket)
    (hnodup : s.pool.free.Nodup) :
    (s.nextMsg < s.msgsReceived ∧
      s.next socket = ⟨s.serve.1, .ok s.serve.2, none⟩) ∨
    (s.msgsReceived ≤ s.nextMsg ∧ s.pool.free = [] ∧
      s.next socket = ⟨s, .error .wouldBlock, none⟩) ∨
    (s.msgsReceived ≤ s.nextMsg ∧ s.pool.free ≠ [] ∧ ∃ s' status,
      s.next socket = ⟨s', .error status, some (s.pool.free.take vlen).length⟩ ∧
      (socket.recvmmsg (s.pool.free.take vlen).length).payloads = [] ∧
      s'.pool.free.Perm s.pool.free ∧
      s'.msgsReceived = s.msgsReceived ∧ s'.nextMsg = s.nextMsg) ∨
    (s.msgsReceived ≤ s.nextMsg ∧ s.pool.free ≠ [] ∧ ∃ s',
      s.next socket = ⟨s'.serve.1, .ok s'.serve.2, some (s.pool.free.take vlen).length⟩ ∧
      Fetched s s' (socket.recvmmsg (s.pool.free.take vlen).length).payloads) := by
  unfold next
  by_cases hlt : s.nextMsg < s.msgsReceived
  · exact .inl ⟨hlt, by rw [if_pos hlt]⟩
  rw [if_neg hlt]
  have hle := Nat.le_of_not_lt hlt
  by_cases hfree : s.pool.free = []
  · refine .inr (.inl ⟨hle, hfree, ?_⟩)
    rw [refill_eq, if_pos hfree]
    obtain ⟨received, next, len, batch, ⟨storage, free⟩⟩ := s
    cases hfree
    simp
  let k := (s.pool.free.take vlen).length
  have hrefill : s.refill = (s.refill.1, some k) := by
    rw [refill_eq, if_neg hfree]
  have hfail : (s.refill.1.releaseRange 0 k).msgsReceived = s.msgsReceived ∧
      (s.refill.1.releaseRange 0 k).nextMsg = s.nextMsg := by
    rw [releaseRange_msgsReceived, releaseRange_nextMsg, refill_eq]
    exact ⟨rfl, rfl⟩
  rw [hrefill]
  dsimp only
  have hvalid := (socket.valid k).1
  cases hreply : socket.recvmmsg k with
  | failed again =>
    exact .inr (.inr (.inl ⟨hle, hfree, _, _, rfl, rfl, releaseRange_refill_free s, hfail⟩))
  | received payloads =>
    cases payloads with
    | nil =>
      exact .inr (.inr (.inl ⟨hle, hfree, _, _, rfl, rfl, releaseRange_refill_free s, hfail⟩))
    | cons p ps =>
      rw [hreply] at hvalid
      exact .inr (.inr (.inr ⟨hle, hfree, s.fetch (p :: ps), rfl,
        fetched_fetch hnodup (List.cons_ne_nil _ _) hvalid⟩))

section Serve

variable {s : McastUDPSource}

@[simp]
theorem serve_batch : s.serve.1.batch = s.batch :=
  rfl

@[simp]
theorem serve_free : s.serve.1.pool.free = s.pool.free :=
  rfl

@[simp]
theorem serve_snd : s.serve.2 = s.batch s.nextMsg :=
  rfl

theorem serve_buf (d : Ptr) :
    (s.serve.1.pool.storage d).buf = (s.pool.storage d).buf := by
  unfold serve
  cases s.batch s.nextMsg with
  | none => rfl
  | some e =>
    by_cases hd : d = e
    · subst hd
      simp
    · simp [Function.update_of_ne hd]

theorem serve_slot (j : ℕ) : s.serve.1.slot j = s.slot j :=
  slot_congr rfl rfl serve_buf

/-- What is served is what the batch holds next. -/
theorem serve_bytes : s.serve.1.bytes s.serve.2 = s.slot s.nextMsg := by
  unfold serve slot bytes
  cases s.batch s.nextMsg with
  | none => rfl
  | some d => simp [Datagram.bytes]

theorem waiting_serve (h : s.nextMsg < s.msgsReceived) :
    s.waiting = s.nextMsg :: s.serve.1.waiting :=
  waiting_of_lt h

end Serve

/-! ## The invariant -/

namespace Session

variable {s s' : Session} {name : ℕ}

theorem inv_start (objects : Ptr → Datagram) : (sessions objects).start.Inv := by
  have hfree : (sessions objects).start.loc .free = List.finRange poolSize :=
    ObjectPool.new_free objects
  have hloc : ∀ p d, d ∈ (sessions objects).start.loc p ↔ p = .free := by
    intro p d
    cases p with
    | free =>
      rw [hfree]
      exact ⟨fun _ => rfl, fun _ => List.mem_finRange d⟩
    | pending => simp [loc, sessions, waiting]
    | buffer name => simp [loc, sessions]
  refine ⟨⟨⟨?_, ?_⟩, ?_⟩, ?_, rfl⟩
  · intro p
    cases p with
    | free =>
      rw [hfree]
      exact List.nodup_finRange _
    | pending => exact List.nodup_nil
    | buffer name => exact List.nodup_nil
  · intro p q d hp hq
    rw [(hloc p d).mp hp, (hloc q d).mp hq]
  · intro d
    exact ⟨.free, (hloc .free d).mpr rfl⟩
  · simp [sessions, waiting]

/-- The pool may be in another order while nothing is to be served. -/
theorem Inv.reordered (h : s.Inv) {m : McastUDPSource}
    (hle : s.source.msgsReceived ≤ s.source.nextMsg)
    (hreceived : m.msgsReceived = s.source.msgsReceived)
    (hnext : m.nextMsg = s.source.nextMsg)
    (hfree : m.pool.free.Perm s.source.pool.free) : { s with source := m }.Inv := by
  have hwaiting : m.waiting = [] := waiting_of_le (by omega)
  have hwaiting' : s.source.waiting = [] := waiting_of_le hle
  refine ⟨?_, ?_, ?_⟩
  · have hloc : { s with source := m }.loc =
        Function.update s.loc .free m.pool.free := by
      funext p
      cases p with
      | free => rfl
      | pending => simp [loc, hwaiting, hwaiting']
      | buffer n => rfl
    rw [hloc]
    exact h.placed.permuted hfree
  · simp [hwaiting]
  · have horder := h.order
    rw [hwaiting'] at horder
    simpa [hwaiting] using horder

/-- The received datagrams take their objects out of the pool. -/
theorem Inv.fetched (h : s.Inv) {m : McastUDPSource} {payloads : List (List UInt8)}
    (hle : s.source.msgsReceived ≤ s.source.nextMsg)
    (hf : Fetched s.source m payloads) :
    { s with source := m, received := s.received ++ payloads }.Inv := by
  have hwaiting : s.source.waiting = [] := waiting_of_le hle
  have hnone : s.loc .pending = [] := by simp [loc, hwaiting]
  refine ⟨?_, hf.filled, ?_⟩
  · have hloc : { s with source := m, received := s.received ++ payloads }.loc =
        Exclusive.move s.loc .free .pending m.pool.free
          (m.waiting.filterMap m.batch) := by
      funext p
      cases p with
      | free => simp [loc, Exclusive.move]
      | pending => simp [loc, Exclusive.move]
      | buffer n => simp [loc, Exclusive.move]
    rw [hloc]
    refine h.placed.moved (by simp) hf.free ?_
    rw [hnone, List.append_nil]
  · have horder := h.order
    rw [hwaiting] at horder
    simpa [hf.slots] using horder

/-- The first datagram to be served goes to the caller. -/
theorem Inv.served (h : s.Inv) (hlt : s.source.nextMsg < s.source.msgsReceived)
    (hname : s.buffers name = none) :
    { s with
      source := s.source.serve.1
      buffers := Function.update s.buffers name (some s.source.serve.2)
      served := s.served ++ [s.source.serve.1.bytes s.source.serve.2] }.Inv := by
  have hwaiting := waiting_serve hlt
  have hmem : s.source.nextMsg ∈ s.source.waiting := by
    rw [hwaiting]
    exact List.mem_cons_self
  obtain ⟨d, hd⟩ := Option.isSome_iff_exists.mp (h.filled _ hmem)
  have hpending : s.loc .pending =
      d :: s.source.serve.1.waiting.filterMap s.source.batch := by
    rw [loc, hwaiting, List.filterMap_cons, hd]
  have hempty : s.loc (.buffer name) = [] := by
    rw [loc, hname]
    rfl
  refine ⟨?_, ?_, ?_⟩
  · have hloc : { s with
          source := s.source.serve.1
          buffers := Function.update s.buffers name (some s.source.serve.2)
          served := s.served ++ [s.source.serve.1.bytes s.source.serve.2] }.loc =
        Exclusive.move s.loc .pending (.buffer name)
          (s.source.serve.1.waiting.filterMap s.source.batch) [d] := by
      funext p
      cases p with
      | free => simp [loc, Exclusive.move]
      | pending => simp [loc, Exclusive.move]
      | buffer n =>
        by_cases hn : n = name
        · subst hn
          simp [loc, Exclusive.move, hd]
        · simp [loc, Exclusive.move, hn]
    rw [hloc]
    refine h.placed.moved (by simp) (l := [d]) (by rw [hpending]; rfl) ?_
    rw [hempty, List.append_nil]
  · intro j hj
    apply h.filled
    rw [hwaiting]
    exact List.mem_cons_of_mem _ hj
  · have horder := h.order
    rw [hwaiting, List.map_cons] at horder
    rw [serve_bytes, funext serve_slot]
    simpa using horder

/-- An object without a datagram may go away. -/
theorem loc_destroy_none (hname : s.buffers name = some none) :
    (s.destroy name none).loc = s.loc := by
  funext p
  cases p with
  | free => rfl
  | pending => rfl
  | buffer n =>
    by_cases hn : n = name
    · subst hn
      simp [loc, destroy, hname]
    · simp [loc, destroy, hn]

theorem loc_destroy_some (d : Ptr) :
    (s.destroy name (some d)).loc =
      Exclusive.move s.loc (.buffer name) .free [] (d :: s.source.pool.free) := by
  funext p
  cases p with
  | free => simp [loc, destroy, Exclusive.move, ObjectPool.restore]
  | pending => simp [loc, destroy, Exclusive.move, waiting]
  | buffer n =>
    by_cases hn : n = name
    · subst hn
      simp [loc, destroy, Exclusive.move]
    · simp [loc, destroy, Exclusive.move, hn]

theorem Inv.destroyed (h : s.Inv) {dgram : Option Ptr}
    (hname : s.buffers name = some dgram) : (s.destroy name dgram).Inv := by
  cases dgram with
  | none =>
    refine ⟨?_, h.filled, h.order⟩
    rw [loc_destroy_none hname]
    exact h.placed
  | some d =>
    have hheld : s.loc (.buffer name) = [d] := by
      rw [loc, hname]
      rfl
    refine ⟨?_, h.filled, ?_⟩
    · rw [loc_destroy_some]
      exact h.placed.moved (by simp) (l := [d]) (by rw [hheld]; rfl) (.refl _)
    · have hslot : ∀ j, (s.destroy name (some d)).source.slot j = s.source.slot j :=
        fun j => slot_congr rfl rfl (restore_buf s.source.pool (some d))
      rw [funext hslot]
      exact h.order

/-- Moving between two objects exchanges what they hold. -/
theorem loc_exchange {other : ℕ} {buffers : ℕ → Option (Option Ptr)}
    (hjoin : ∀ n, (buffers n).join = (s.buffers (Equiv.swap name other n)).join) (p : Place) :
    { s with buffers }.loc p = s.loc (Equiv.swap (.buffer name) (.buffer other) p) := by
  have hinj : Function.Injective Place.buffer := fun _ _ heq => Place.buffer.inj heq
  cases p with
  | free => rw [Equiv.swap_apply_of_ne_of_ne (by simp) (by simp)]; rfl
  | pending => rw [Equiv.swap_apply_of_ne_of_ne (by simp) (by simp)]; rfl
  | buffer n =>
    rw [hinj.swap_apply]
    simp only [loc, hjoin]

theorem Inv.exchanged (h : s.Inv) {other : ℕ} (hsource : s'.source = s.source)
    (hloc : ∀ p, s'.loc p = s.loc (Equiv.swap (.buffer name) (.buffer other) p))
    (hreceived : s'.received = s.received) (hserved : s'.served = s.served) :
    s'.Inv := by
  refine ⟨?_, ?_, ?_⟩
  · rw [funext hloc]
    exact h.placed.relabeled _
  · rw [hsource]
    exact h.filled
  · rw [hsource, hreceived, hserved]
    exact h.order

/-! ## What a step does -/

theorem handed_serve {m : McastUDPSource} (hlt : m.nextMsg < m.msgsReceived)
    (hfilled : (m.batch m.nextMsg).isSome) (hsource : s'.source = m.serve.1)
    (hbuffers : s'.buffers = Function.update s.buffers name (some m.serve.2))
    (hserved : s'.served = s.served ++ [m.serve.1.bytes m.serve.2]) :
    s.Handed s' name (m.waiting.map m.slot) := by
  obtain ⟨d, hd⟩ := Option.isSome_iff_exists.mp hfilled
  have hbytes := serve_bytes (s := m)
  rw [serve_snd, hd] at hbytes hbuffers hserved
  rw [hbytes] at hserved
  rw [waiting_serve hlt, List.map_cons]
  refine ⟨d, hbuffers, by rw [hsource, hbytes], hserved, ?_⟩
  rw [hsource, funext serve_slot]

theorem Inv.effect_next (h : s.Inv) (socket : Socket) :
    (s.next name socket).received = s.received ++ s.incoming socket ∧
    s.Handed (s.next name socket) name
      (s.source.waiting.map s.source.slot ++ s.incoming socket) := by
  have hnodup : s.source.pool.free.Nodup := h.placed.nodup .free
  unfold incoming Session.next
  rcases next_cases s.source socket hnodup with ⟨hlt, heq⟩ | ⟨hle, hfree, heq⟩ |
      ⟨hle, hfree, m, status, heq, hnone, -, -, -⟩ | ⟨hle, hfree, m, heq, hf⟩
  · rw [heq, if_pos (.inl hlt), List.append_nil, List.append_nil]
    refine ⟨rfl, handed_serve hlt (h.filled _ ?_) rfl rfl rfl⟩
    rw [waiting_serve hlt]
    exact List.mem_cons_self
  · rw [heq, if_pos (.inr hfree), waiting_of_le hle, List.append_nil]
    exact ⟨rfl, rfl, rfl⟩
  · rw [heq, if_neg (by simp [hfree, hle]), waiting_of_le hle]
    dsimp only
    rw [hnone]
    exact ⟨rfl, rfl, rfl⟩
  · rw [heq, if_neg (by simp [hfree, hle]), waiting_of_le hle]
    have hlt : m.nextMsg < m.msgsReceived := by
      rw [hf.nextMsg, hf.msgsReceived]
      exact List.length_pos_iff.mpr hf.nonempty
    refine ⟨rfl, ?_⟩
    rw [List.map_nil, List.nil_append, ← hf.slots]
    refine handed_serve hlt (hf.filled _ ?_) rfl rfl rfl
    rw [waiting_serve hlt]
    exact List.mem_cons_self

theorem effect_destroy {dgram : Option Ptr} (hname : s.buffers name = some dgram) :
    s.Effect (s.destroy name dgram) (.destroy name) := by
  have hheld : s.loc (.buffer name) = dgram.toList := by
    rw [loc, hname]
    rfl
  rw [Effect, hheld]
  cases dgram with
  | none =>
    rw [loc_destroy_none hname]
    exact ⟨rfl, rfl, rfl, rfl, rfl⟩
  | some d =>
    rw [loc_destroy_some]
    exact ⟨rfl, by simp [Exclusive.move, loc], by simp [Exclusive.move], rfl, rfl⟩

theorem Inv.effect (h : s.Inv) {a : Action} (hstep : s.step a = some s') :
    s.Effect s' a := by
  cases a with
  | next name socket =>
    rw [Session.step] at hstep
    split at hstep
    · cases hstep
    · cases hstep
      exact h.effect_next socket
  | destroy name =>
    rw [Session.step] at hstep
    split at hstep
    · cases hstep
    · next dgram hname =>
      cases hstep
      exact effect_destroy hname
  | construct name other =>
    rw [Session.step] at hstep
    split at hstep
    · next dgram hname hother =>
      cases hstep
      exact ⟨rfl, loc_exchange (join_construct hname hother), rfl, rfl⟩
    · cases hstep
  | assign name rhs =>
    rw [Session.step] at hstep
    split at hstep
    · next dgram dgram' hname hrhs =>
      cases hstep
      exact ⟨rfl, loc_exchange (join_assign hname hrhs), rfl, rfl⟩
    · cases hstep

theorem Inv.next (h : s.Inv) (hname : s.buffers name = none) (socket : Socket) :
    (s.next name socket).Inv := by
  have hnodup : s.source.pool.free.Nodup := h.placed.nodup .free
  unfold Session.next
  rcases next_cases s.source socket hnodup with ⟨hlt, heq⟩ | ⟨hle, -, heq⟩ |
      ⟨hle, -, m, status, heq, hnone, hperm, hreceived, hnext⟩ | ⟨hle, -, m, heq, hf⟩
  · rw [heq]
    exact h.served hlt hname
  · rw [heq]
    exact h
  · rw [heq]
    dsimp only
    rw [hnone, List.append_nil]
    exact h.reordered hle hreceived hnext hperm
  · rw [heq]
    have hlt : m.nextMsg < m.msgsReceived := by
      rw [hf.nextMsg, hf.msgsReceived]
      exact List.length_pos_iff.mpr hf.nonempty
    exact (h.fetched hle hf).served hlt hname

theorem Inv.step (h : s.Inv) {a : Action} (hstep : s.step a = some s') : s'.Inv := by
  have heffect := h.effect hstep
  cases a with
  | next name socket =>
    rw [Session.step] at hstep
    split at hstep
    · cases hstep
    · next hname =>
      cases hstep
      exact h.next hname socket
  | destroy name =>
    rw [Session.step] at hstep
    split at hstep
    · cases hstep
    · next dgram hname =>
      cases hstep
      exact h.destroyed hname
  | construct name other | assign name other =>
    obtain ⟨hsource, hloc, hreceived, hserved⟩ := heffect
    exact h.exchanged hsource hloc hreceived hserved

theorem inv_of_reachable {objects : Ptr → Datagram}
    (h : (sessions objects).Reachable s) : s.Inv :=
  h.invariant (inv_start objects) fun _ _ _ hs hstep => hs.step hstep

end Session

/-- In every run each datagram buffer is in one place, what has been received is
served in order, once, and `next` gives up without asking the socket only if the
pool is empty.  Every step does its part: `next` hands out the first datagram
that is there, and a `Buffer` that is destroyed gives its own back to the pool. -/
theorem buffers_conserved (objects : Ptr → Datagram) {s : Session}
    (h : (sessions objects).Reachable s) :
    (∀ d, ∃! p, d ∈ s.loc p) ∧ (∀ p, (s.loc p).Nodup) ∧
    (∀ j, s.source.nextMsg ≤ j → j < s.source.msgsReceived →
      (s.source.batch j).isSome) ∧
    s.received = s.served ++ s.source.waiting.map s.source.slot ∧
    (∀ socket, (s.source.next socket).result = .error .wouldBlock →
      (s.source.next socket).offered = none → s.source.pool.free = []) ∧
    ∀ a s', s.step a = some s' → s.Effect s' a := by
  have hinv := Session.inv_of_reachable h
  refine ⟨hinv.placed.existsUnique_mem, hinv.placed.nodup, ?_, hinv.order, ?_,
    fun a s' hstep => hinv.effect hstep⟩
  · intro j hj hlt
    apply hinv.filled
    rw [waiting, List.mem_range'_1]
    omega
  · intro socket hresult hoffered
    rcases next_cases s.source socket (hinv.placed.nodup .free) with ⟨-, heq⟩ |
        ⟨-, hfree, -⟩ | ⟨-, -, m, status, heq, -⟩ | ⟨-, -, m, heq, -⟩
    · rw [heq] at hresult
      cases hresult
    · exact hfree
    · rw [heq] at hoffered
      cases hoffered
    · rw [heq] at hoffered
      cases hoffered

/-- A socket with two datagrams for whoever offers two buffers. -/
def twoDatagrams : Socket where
  recvmmsg k := if 2 ≤ k then .received [[1], [2, 3]] else .failed true
  valid k := by
    split
    · next hk => exact ⟨hk, by decide⟩
    · exact ⟨Nat.zero_le k, by simp [Reply.payloads]⟩

/-- The caller has taken both datagrams. -/
def takenTwo : Session :=
  ((sessions fun _ => ⟨[], 0⟩).start.next 0 twoDatagrams).next 1 twoDatagrams

theorem reachable_takenTwo : (sessions fun _ => ⟨[], 0⟩).Reachable takenTwo := by
  have hfirst : (sessions fun _ => ⟨[], 0⟩).start.buffers 0 = none := rfl
  have hsecond : ((sessions fun _ => ⟨[], 0⟩).start.next 0 twoDatagrams).buffers 1 =
      none := by
    decide +kernel
  apply (TransitionSystem.Reachable.start.step (a := .next 0 twoDatagrams) ?_).step
    (a := .next 1 twoDatagrams)
  · simp only [sessions, Session.step] at hsecond ⊢
    rw [hsecond]
    rfl
  · simp only [sessions, Session.step] at hfirst ⊢

/-- The caller destroys the first of them again. -/
theorem buffers_conserved_takenTwo :
    (sessions fun _ => ⟨[], 0⟩).Reachable takenTwo ∧
    takenTwo.served = [[1], [2, 3]] ∧ (∀ d, ∃! p, d ∈ takenTwo.loc p) ∧
    ∃ s d, takenTwo.step (.destroy 0) = some s ∧
      takenTwo.loc (.buffer 0) = [d] ∧ s.loc (.buffer 0) = [] ∧
      s.loc .free = d :: takenTwo.loc .free := by
  have hconserved := buffers_conserved _ reachable_takenTwo
  let first : Ptr := ⟨0, by decide⟩
  have hheld : takenTwo.buffers 0 = some (some first) := by decide +kernel
  have hloc : takenTwo.loc (.buffer 0) = [first] := by
    rw [Session.loc, hheld]
    rfl
  have hstep : takenTwo.step (.destroy 0) = some (takenTwo.destroy 0 (some first)) := by
    rw [Session.step, hheld]
  obtain ⟨hbuffers, hfree, -⟩ := hconserved.2.2.2.2.2 _ _ hstep
  rw [hloc] at hfree
  refine ⟨reachable_takenTwo, by decide +kernel, hconserved.1, _, first, hstep, hloc, ?_,
    hfree⟩
  rw [Session.loc, hbuffers, Function.update_self]
  rfl

end McastUDPSource

end Fastbook
