import Fastbook.Feed.VenueFeed
import Mathlib.Data.List.FinRange

/-!
# The multicast source

A model of `ObjectPool` (`common/object_pool.hpp`) and of `McastUDPSource`
(`transport/mcast_udp_source.hpp`), which receives datagrams in batches into the
objects of a pool.  A pointer to an object of the pool is its index, and the null
pointer is `none`.
-/

namespace Fastbook

namespace McastUDPSource

/-- The objects of the pool and the stack of the free ones, its top first. -/
structure ObjectPool (capacity : ℕ) (T : Type) where
  storage : Fin capacity → T
  free : List (Fin capacity)

namespace ObjectPool

variable {capacity : ℕ} {T : Type}

/-- A new pool hands out low indices first. -/
def new (objects : Fin capacity → T) : ObjectPool capacity T where
  storage := objects
  free := List.finRange capacity

theorem new_free (objects : Fin capacity → T) :
    (new objects).free = List.finRange capacity :=
  rfl

def get (pool : ObjectPool capacity T) :
    Option (Fin capacity) × ObjectPool capacity T :=
  match pool.free with
  | [] => (none, pool)
  | obj :: free => (some obj, { pool with free })

def restore (reset : T → T) (pool : ObjectPool capacity T) :
    Option (Fin capacity) → ObjectPool capacity T
  | none => pool
  | some obj =>
    { storage := Function.update pool.storage obj (reset (pool.storage obj))
      free := obj :: pool.free }

def available (pool : ObjectPool capacity T) : ℕ :=
  pool.free.length

end ObjectPool

def msgBufSz : ℕ := 2048

def vlen : ℕ := 128

def poolSize : ℕ := 4 * vlen

structure Datagram where
  buf : List UInt8
  sz : ℕ

def Datagram.reset (d : Datagram) : Datagram :=
  { d with sz := 0 }

/-- `Buffer::bytes`. -/
def Datagram.bytes (d : Datagram) : List UInt8 :=
  d.buf.take d.sz

abbrev Ptr := Fin poolSize

/-- What `recvmmsg` may answer.  `again` says that `errno` is one of `EAGAIN`,
`EWOULDBLOCK` and `EINTR`. -/
inductive Reply where
  | failed (again : Bool)
  | received (payloads : List (List UInt8))

namespace Reply

/-- The datagrams that have come. -/
def payloads : Reply → List (List UInt8)
  | failed _ => []
  | received payloads => payloads

/-- The answers to an offer of `k` buffers. -/
def Valid (k : ℕ) (reply : Reply) : Prop :=
  reply.payloads.length ≤ k ∧ ∀ p ∈ reply.payloads, p.length ≤ msgBufSz

end Reply

/-- The socket, by what it answers to an offer of `k` buffers. -/
structure Socket where
  recvmmsg : ℕ → Reply
  valid : ∀ k, (recvmmsg k).Valid k

end McastUDPSource

/-- `iovecs_` is left out: the buffer offered in place `k` is that of `batch k`. -/
structure McastUDPSource where
  msgsReceived : ℕ := 0
  nextMsg : ℕ := 0
  msgLen : ℕ → ℕ := fun _ => 0
  batch : ℕ → Option McastUDPSource.Ptr := fun _ => none
  pool : McastUDPSource.ObjectPool McastUDPSource.poolSize McastUDPSource.Datagram

namespace McastUDPSource

/-- The loop of `refill_`, for the places from `k` on, of which `n` are left. -/
def refillLoop (s : McastUDPSource) (k : ℕ) : ℕ → McastUDPSource × ℕ
  | 0 => (s, k)
  | n + 1 =>
    match s.pool.get with
    | (none, _) => (s, k)
    | (some d, pool) =>
      refillLoop { s with pool, batch := Function.update s.batch k (some d) } (k + 1) n

def refill (s : McastUDPSource) : McastUDPSource × Option ℕ :=
  let (s, k) := s.refillLoop 0 vlen
  if k = 0 then (s, none) else (s, some k)

/-- `release_range_` from `j` on, for `n` places. -/
def releaseRange (s : McastUDPSource) (j : ℕ) : ℕ → McastUDPSource
  | 0 => s
  | n + 1 =>
    releaseRange { s with pool := s.pool.restore Datagram.reset (s.batch j) } (j + 1) n

/-- The buffer that `serve_` returns has the pointer. -/
def serve (s : McastUDPSource) : McastUDPSource × Option Ptr :=
  let d := s.batch s.nextMsg
  let storage := match d with
    | none => s.pool.storage
    | some d => Function.update s.pool.storage d
        { s.pool.storage d with sz := s.msgLen s.nextMsg }
  ({ s with pool := { s.pool with storage }, nextMsg := s.nextMsg + 1 }, d)

/-- What `recvmmsg` writes for the datagram in place `i`. -/
def receive (s : McastUDPSource) (i : ℕ) (payload : List UInt8) : McastUDPSource :=
  let storage := match s.batch i with
    | none => s.pool.storage
    | some d =>
      let rest := (s.pool.storage d).buf.drop payload.length
      Function.update s.pool.storage d { s.pool.storage d with buf := payload ++ rest }
  { s with pool := { s.pool with storage }
           msgLen := Function.update s.msgLen i payload.length }

/-- What `recvmmsg` writes for the datagrams from place `i` on. -/
def deliver (s : McastUDPSource) (i : ℕ) : List (List UInt8) → McastUDPSource
  | [] => s
  | payload :: payloads => deliver (s.receive i payload) (i + 1) payloads

/-- What `next` does: the new state, its result, and what it has offered to
`recvmmsg` if it has called it. -/
structure Outcome where
  source : McastUDPSource
  result : Except TransportStatus (Option Ptr)
  offered : Option ℕ

def next (s : McastUDPSource) (socket : Socket) : Outcome :=
  if s.nextMsg < s.msgsReceived then
    let (s, d) := s.serve
    { source := s, result := .ok d, offered := none }
  else
    match s.refill with
    | (s, none) => { source := s, result := .error .wouldBlock, offered := none }
    | (s, some k) =>
      match socket.recvmmsg k with
      | .failed again =>
        { source := s.releaseRange 0 k
          result := .error (if again then .wouldBlock else .error)
          offered := some k }
      | .received [] =>
        { source := s.releaseRange 0 k, result := .error .wouldBlock, offered := some k }
      | .received payloads =>
        let nrecv := payloads.length
        let s := (s.deliver 0 payloads).releaseRange nrecv (k - nrecv)
        let (s, d) := { s with msgsReceived := nrecv, nextMsg := 0 }.serve
        { source := s, result := .ok d, offered := some k }

/-! ## What the functions do -/

/-- What a message in the batch holds. -/
def slot (s : McastUDPSource) (j : ℕ) : List UInt8 :=
  match s.batch j with
  | none => []
  | some d => (s.pool.storage d).buf.take (s.msgLen j)

theorem slot_of_eq {s : McastUDPSource} {j : ℕ} {d : Ptr} (h : s.batch j = some d) :
    s.slot j = (s.pool.storage d).buf.take (s.msgLen j) := by
  rw [slot, h]

theorem slot_congr {s s' : McastUDPSource} {j : ℕ} (hbatch : s'.batch j = s.batch j)
    (hlen : s'.msgLen j = s.msgLen j)
    (hbuf : ∀ d, (s'.pool.storage d).buf = (s.pool.storage d).buf) :
    s'.slot j = s.slot j := by
  unfold slot
  rw [hbatch]
  split
  · rfl
  · rw [hbuf, hlen]

/-- The batch with some objects put into the places from `k` on. -/
def fill (batch : ℕ → Option Ptr) (k : ℕ) (taken : List Ptr) (j : ℕ) : Option Ptr :=
  if j < k then batch j else taken[j - k]?.or (batch j)

@[simp]
theorem fill_nil (batch : ℕ → Option Ptr) (k : ℕ) : fill batch k [] = batch := by
  funext j
  simp [fill]

theorem fill_cons (batch : ℕ → Option Ptr) (k : ℕ) (d : Ptr) (taken : List Ptr) :
    fill (Function.update batch k (some d)) (k + 1) taken =
      fill batch k (d :: taken) := by
  funext j
  unfold fill
  rcases Nat.lt_trichotomy j k with hj | rfl | hj
  · rw [if_pos (by omega), if_pos hj, Function.update_of_ne (by omega)]
  · simp
  · obtain ⟨m, rfl⟩ := Nat.exists_eq_add_of_lt hj
    have hsub : k + m + 1 - k = m + 1 := by omega
    rw [if_neg (by omega), if_neg (by omega), Function.update_of_ne (by omega),
      hsub, List.getElem?_cons_succ, Nat.add_right_comm, Nat.add_sub_cancel_left]

theorem fill_of_lt {batch : ℕ → Option Ptr} {taken : List Ptr} {j : ℕ}
    (h : j < taken.length) : fill batch 0 taken j = some taken[j] := by
  simp [fill, h]

/-- The loop takes the free objects off the top, as many as it can use. -/
theorem refillLoop_eq (s : McastUDPSource) (k n : ℕ) :
    s.refillLoop k n =
      ({ s with
          pool := { s.pool with free := s.pool.free.drop n }
          batch := fill s.batch k (s.pool.free.take n) },
        k + (s.pool.free.take n).length) := by
  induction n generalizing s k with
  | zero => simp [refillLoop]
  | succ n ih =>
    unfold refillLoop ObjectPool.get
    cases hfree : s.pool.free with
    | nil =>
      obtain ⟨received, next, len, batch, ⟨storage, free⟩⟩ := s
      cases hfree
      simp
    | cons d free =>
      dsimp only
      rw [ih, List.take_succ_cons, List.drop_succ_cons, List.length_cons, fill_cons,
        Nat.add_right_comm, Nat.add_assoc]

/-- `refill_` takes up to `VLEN` free objects, into the first places. -/
theorem refill_eq (s : McastUDPSource) :
    s.refill =
      ({ s with
          pool := { s.pool with free := s.pool.free.drop vlen }
          batch := fill s.batch 0 (s.pool.free.take vlen) },
        if s.pool.free = [] then none else some (s.pool.free.take vlen).length) := by
  have hzero : (s.pool.free.take vlen).length = 0 ↔ s.pool.free = [] := by
    simp [vlen]
  unfold refill
  rw [refillLoop_eq, Nat.zero_add]
  dsimp only
  by_cases hfree : s.pool.free = []
  · rw [if_pos hfree, if_pos (hzero.mpr hfree)]
  · rw [if_neg hfree, if_neg (mt hzero.mp hfree)]

section ReleaseRange

variable (s : McastUDPSource) (j n : ℕ)

@[simp]
theorem releaseRange_batch : (s.releaseRange j n).batch = s.batch := by
  induction n generalizing s j with
  | zero => rfl
  | succ n ih => rw [releaseRange, ih]

@[simp]
theorem releaseRange_msgLen : (s.releaseRange j n).msgLen = s.msgLen := by
  induction n generalizing s j with
  | zero => rfl
  | succ n ih => rw [releaseRange, ih]

@[simp]
theorem releaseRange_msgsReceived :
    (s.releaseRange j n).msgsReceived = s.msgsReceived := by
  induction n generalizing s j with
  | zero => rfl
  | succ n ih => rw [releaseRange, ih]

@[simp]
theorem releaseRange_nextMsg : (s.releaseRange j n).nextMsg = s.nextMsg := by
  induction n generalizing s j with
  | zero => rfl
  | succ n ih => rw [releaseRange, ih]

theorem restore_buf (pool : ObjectPool poolSize Datagram) (o : Option Ptr) (d : Ptr) :
    ((pool.restore Datagram.reset o).storage d).buf = (pool.storage d).buf := by
  cases o with
  | none => rfl
  | some e =>
    by_cases hd : d = e
    · subst hd
      simp [ObjectPool.restore, Datagram.reset]
    · simp [ObjectPool.restore, Function.update_of_ne hd]

@[simp]
theorem releaseRange_buf (d : Ptr) :
    ((s.releaseRange j n).pool.storage d).buf = (s.pool.storage d).buf := by
  induction n generalizing s j with
  | zero => rfl
  | succ n ih => rw [releaseRange, ih, restore_buf]

/-- The objects of the range end up on the stack, in reverse. -/
theorem releaseRange_free :
    (s.releaseRange j n).pool.free =
      ((List.range' j n).filterMap s.batch).reverse ++ s.pool.free := by
  induction n generalizing s j with
  | zero => rfl
  | succ n ih =>
    rw [releaseRange, ih, List.range'_succ, List.filterMap_cons]
    cases h : s.batch j with
    | none => simp [ObjectPool.restore]
    | some d => simp [ObjectPool.restore]

end ReleaseRange

section Deliver

variable (s : McastUDPSource) (i : ℕ) (ps : List (List UInt8))

@[simp]
theorem deliver_batch : (s.deliver i ps).batch = s.batch := by
  induction ps generalizing s i with
  | nil => rfl
  | cons p ps ih => exact ih _ _

@[simp]
theorem deliver_free : (s.deliver i ps).pool.free = s.pool.free := by
  induction ps generalizing s i with
  | nil => rfl
  | cons p ps ih => exact ih _ _

theorem deliver_msgLen {j : ℕ} (h : j < i) :
    (s.deliver i ps).msgLen j = s.msgLen j := by
  induction ps generalizing s i with
  | nil => rfl
  | cons p ps ih =>
    rw [deliver, ih _ _ (by omega)]
    exact Function.update_of_ne (by omega) _ _

theorem receive_storage_of_eq {d : Ptr} (h : s.batch i = some d) (p : List UInt8) :
    (s.receive i p).pool.storage d =
      { s.pool.storage d with buf := p ++ (s.pool.storage d).buf.drop p.length } := by
  simp [receive, h]

theorem receive_storage_of_ne {d : Ptr} (h : s.batch i ≠ some d) (p : List UInt8) :
    (s.receive i p).pool.storage d = s.pool.storage d := by
  unfold receive
  cases he : s.batch i with
  | none => rfl
  | some e =>
    refine Function.update_of_ne ?_ _ _
    rintro rfl
    exact h he

/-- The other objects are not touched. -/
theorem deliver_storage {d : Ptr}
    (h : ∀ j, i ≤ j → j < i + ps.length → s.batch j ≠ some d) :
    (s.deliver i ps).pool.storage d = s.pool.storage d := by
  induction ps generalizing s i with
  | nil => rfl
  | cons p ps ih =>
    rw [List.length_cons] at h
    rw [deliver, ih]
    · exact receive_storage_of_ne s i (h i (by omega) (by omega)) p
    · intro j hj hlt
      exact h j (by omega) (by omega)

/-- If the places of the batch are different objects, each holds its datagram. -/
theorem map_slot_deliver
    (hsome : ∀ j, i ≤ j → j < i + ps.length → (s.batch j).isSome)
    (hinj : ∀ j j', i ≤ j → j < j' → j' < i + ps.length → s.batch j ≠ s.batch j') :
    (List.range' i ps.length).map (s.deliver i ps).slot = ps := by
  induction ps generalizing s i with
  | nil => rfl
  | cons p ps ih =>
    rw [List.length_cons] at hsome hinj
    rw [List.length_cons, List.range'_succ, List.map_cons, deliver]
    congr 1
    · obtain ⟨d, hd⟩ := Option.isSome_iff_exists.mp (hsome i (by omega) (by omega))
      -- the later datagrams go to other objects
      have hkeep : ((s.receive i p).deliver (i + 1) ps).pool.storage d =
          (s.receive i p).pool.storage d := by
        apply deliver_storage
        intro j hj hlt
        rw [← hd]
        exact (hinj i j (by omega) (by omega) (by omega)).symm
      have hlen : ((s.receive i p).deliver (i + 1) ps).msgLen i = p.length := by
        rw [deliver_msgLen _ _ _ (Nat.lt_succ_self i)]
        simp [receive]
      rw [slot_of_eq (by rw [deliver_batch]; exact hd), hkeep, hlen,
        receive_storage_of_eq s i hd]
      simp
    · exact ih _ _ (fun j hj hlt => hsome j (by omega) (by omega))
        fun j j' hj hlt hlt' => hinj j j' (by omega) hlt (by omega)

end Deliver

end McastUDPSource

end Fastbook
