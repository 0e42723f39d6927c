import Fastbook.Feed.FeedFilter
import Fastbook.Support.Ring
import Fastbook.Support.TransitionSystem

/-!
# The AF_XDP source

A model of `AfXDPSource` (`transport/af_xdp_source.hpp`) together with the kernel
on the other side of its rings and a caller that keeps `Buffer` objects, as many
as it likes, and moves and destroys them in any order.

The program and the kernel share 4096 frames.  The kernel takes frames from the
fill ring, receives into them, runs `feed_filter` and puts a descriptor of what
is redirected on the rx ring; `next` hands the descriptor out as a `Buffer`, and
`~Buffer` puts the frame on the fill ring again.  The positions of the rings are
counters that do not wrap, since their sizes divide `2^32`.
-/

namespace Fastbook

open Support

namespace AfXdpSource

def nFrames : ℕ := 4096

/-- `XSK_UMEM__DEFAULT_FRAME_SIZE`. -/
def frameSize : ℕ := 4096

def batchSize : ℕ := 32

/-- `XSK_RING_CONS__DEFAULT_NUM_DESCS`. -/
def rxSize : ℕ := 2048

/-- An `xdp_desc`. -/
structure Desc where
  addr : ℕ
  len : ℕ
  deriving DecidableEq, Repr

/-- The frame that an address is in. -/
def frameOf (addr : ℕ) : Fin nFrames :=
  ⟨addr / frameSize % nFrames, Nat.mod_lt _ (by decide)⟩

/-- `xsk_umem__extract_addr`. -/
def extractAddr (addr : ℕ) : ℕ :=
  addr % 2 ^ 48

end AfXdpSource

open AfXdpSource

/-- `cachedCons` belongs to `rx_`: how far it has been peeked at. -/
structure AfXdpSource where
  fq : Ring nFrames ℕ
  rx : Ring rxSize Desc
  cachedCons : ℕ := 0
  peekedRx : ℕ := 0
  nextRx : ℕ := 0
  batchRx : ℕ := 0

namespace AfXdpSource

/-- What the constructor has put on the fill ring after `n` turns of its loop. -/
def filled : ℕ → Ring nFrames ℕ
  | 0 => { slots := fun _ => 0 }
  | n + 1 => (filled n).push (n * frameSize)

theorem filled_spec {n : ℕ} (hn : n ≤ nFrames) :
    (filled n).prod = n ∧ (filled n).cons = 0 ∧
      (filled n).entries 0 = (List.range n).map (· * frameSize) := by
  induction n with
  | zero => exact ⟨rfl, rfl, rfl⟩
  | succ n ih =>
    obtain ⟨hprod, hcons, hentries⟩ := ih (Nat.le_of_succ_le hn)
    have hroom : 0 < (filled n).room := by
      unfold Ring.room
      omega
    refine ⟨?_, hcons, ?_⟩
    · rw [filled, Ring.push_prod, hprod]
    · rw [filled, Ring.entries_push hroom hcons.le (Nat.zero_le _), hentries,
        List.range_succ, List.map_append, List.map_singleton]

attribute [irreducible] filled

def new : AfXdpSource where
  fq := filled nFrames
  rx := { slots := fun _ => ⟨0, 0⟩ }

/-- The first half of `rearm_batch`. -/
def release (s : AfXdpSource) : AfXdpSource :=
  if s.peekedRx ≠ 0 then { s with rx := s.rx.release s.peekedRx } else s

/-- What `xsk_ring_cons__peek` may answer: it looks at the position of the
kernel again only if it knows of no entry, so it may answer less than there is,
but never nothing. -/
def Peeks (s : AfXdpSource) (n : ℕ) : Prop :=
  n ≤ batchSize ∧ s.cachedCons + n ≤ s.rx.prod ∧ (n = 0 → s.rx.prod = s.cachedCons)

instance (s : AfXdpSource) (n : ℕ) : Decidable (s.Peeks n) :=
  inferInstanceAs (Decidable (_ ∧ _ ∧ _))

/-- The second half, with the answer `n`, which sets `next_rx_` only if it is
not zero. -/
def peek (s : AfXdpSource) (n : ℕ) : AfXdpSource :=
  { s with
    cachedCons := s.cachedCons + n
    peekedRx := n
    nextRx := if n = 0 then s.nextRx else s.cachedCons
    batchRx := 0 }

/-- The end of `next`. -/
def take (s : AfXdpSource) : AfXdpSource × Desc :=
  ({ s with batchRx := s.batchRx + 1, nextRx := s.nextRx + 1 }, s.rx.get s.nextRx)

/-- What lies in the memory that a descriptor names. -/
def Desc.content (d : Desc) (umem : ℕ → UInt8) : List UInt8 :=
  (List.range d.len).map fun i => umem (d.addr + i)

/-- `bytes` of a `Buffer` with this descriptor. -/
def Desc.bytes (d : Desc) (umem : ℕ → UInt8) : List UInt8 :=
  let data := fun i => umem (d.addr + i)
  (AfXdpSource.bytes data d.len).content data

/-- What `bytes` finds in a frame. -/
def payload (data : List UInt8) : List UInt8 :=
  (AfXdpSource.bytes (ofList data) data.length).content (ofList data)

/-- A `Buffer` that holds a frame.  `number` is not in the program: the datagram
that it was handed out for, counted from the first that was served. -/
structure Held where
  desc : Desc
  number : ℕ
  deriving DecidableEq, Repr

/-- The source, the memory, the frames that the kernel holds, and the `Buffer`
objects by their names; one without a frame is `some none`.  `rearming` is set
while `next` is between the two halves of `rearm_batch`, and `failed` once the
assertion of `~Buffer` has failed.  `arrived` is what has been redirected. -/
structure Session where
  source : AfXdpSource
  umem : ℕ → UInt8
  kernel : List (Fin nFrames) := []
  buffers : ℕ → Option (Option Held) := fun _ => none
  rearming : Bool := false
  failed : Bool := false
  arrived : List (List UInt8) := []
  served : List (List UInt8) := []

/-- The first three are the parts of `next`, and the last three are the kernel's. -/
inductive Action where
  /-- The batch is used up, and is released. -/
  | release
  /-- The rest of that call. -/
  | peek (name n : ℕ)
  /-- A call within a batch. -/
  | serve (name : ℕ)
  /-- The default constructor. -/
  | create (name : ℕ)
  | destroy (name : ℕ)
  /-- The move constructor. -/
  | construct (name other : ℕ)
  /-- The move assignment. -/
  | assign (name rhs : ℕ)
  /-- A frame is taken from the fill ring. -/
  | take
  /-- Anything is written to a frame. -/
  | receive (frame : Fin nFrames) (mem : ℕ → UInt8)
  /-- A frame has passed the filter and goes to the rx ring. -/
  | deliver (frame : Fin nFrames) (off len : ℕ)

namespace Session

/-- `next` hands the frame at `next_rx_` out. -/
def serve (s : Session) (name : ℕ) : Session :=
  let (source, desc) := s.source.take
  { s with
    source
    buffers := Function.update s.buffers name (some (some ⟨desc, s.served.length⟩))
    served := s.served ++ [desc.bytes s.umem] }

def peek (s : Session) (name n : ℕ) : Session :=
  let s := { s with source := s.source.peek n, rearming := false }
  if n = 0 then s else s.serve name

/-- `~Buffer`. -/
def destroy (s : Session) (name : ℕ) (held : Option Held) : Session :=
  let s := { s with buffers := Function.update s.buffers name none }
  match held with
  | none => s
  | some b =>
    if 0 < s.source.fq.room then
      { s with source.fq := s.source.fq.push (extractAddr b.desc.addr) }
    else { s with failed := true }

def take (s : Session) : Session :=
  let fq := s.source.fq
  { s with
    source.fq := fq.release 1
    kernel := frameOf (fq.get fq.cons) :: s.kernel }

def receive (s : Session) (frame : Fin nFrames) (mem : ℕ → UInt8) : Session :=
  { s with umem := fun a => if a / frameSize = frame then mem a else s.umem a }

def deliver (s : Session) (frame : Fin nFrames) (d : Desc) : Session :=
  { s with
    source.rx := s.source.rx.push d
    kernel := s.kernel.erase frame
    arrived := s.arrived ++ [d.content s.umem] }

/-- What the kernel puts on the rx ring: a part of a frame that it holds and that
the filter redirects. -/
def Delivers (port : UInt16) (s : Session) (frame : Fin nFrames) (off len : ℕ) : Prop :=
  frame ∈ s.kernel ∧ off + len ≤ frameSize ∧ 0 < s.source.rx.room ∧
    feedFilter port (ofList (Desc.content ⟨frame * frameSize + off, len⟩ s.umem)) len =
      .redirect

instance (port : UInt16) (s : Session) (frame : Fin nFrames) (off len : ℕ) :
    Decidable (s.Delivers port frame off len) :=
  inferInstanceAs (Decidable (_ ∧ _ ∧ _ ∧ _))

/-- The kernel moves at any time; the caller does nothing else while it is in
`next`. -/
def step (port : UInt16) (s : Session) : Action → Option Session
  | .release =>
    if s.rearming = false ∧ s.source.batchRx = s.source.peekedRx then
      some { s with source := s.source.release, rearming := true }
    else none
  | .peek name n =>
    if s.rearming = true ∧ s.buffers name = none ∧ s.source.Peeks n then
      some (s.peek name n)
    else none
  | .serve name =>
    if s.rearming = false ∧ s.buffers name = none ∧
        s.source.batchRx ≠ s.source.peekedRx then
      some (s.serve name)
    else none
  | .create name =>
    if s.rearming = false ∧ s.buffers name = none then
      some { s with buffers := Function.update s.buffers name (some none) }
    else none
  | .destroy name =>
    match s.rearming, s.buffers name with
    | false, some held => some (s.destroy name held)
    | _, _ => none
  | .construct name other =>
    match s.rearming, s.buffers name, s.buffers other with
    | false, none, some held =>
      let moved := Function.update s.buffers other (some none)
      some { s with buffers := Function.update moved name (some held) }
    | _, _, _ => none
  | .assign name rhs =>
    match s.rearming, s.buffers name, s.buffers rhs with
    | false, some held, some held' =>
      let moved := Function.update s.buffers name (some held')
      some { s with buffers := Function.update moved rhs (some held) }
    | _, _, _ => none
  | .take =>
    if s.source.fq.cons < s.source.fq.prod then some s.take else none
  | .receive frame mem =>
    if frame ∈ s.kernel then some (s.receive frame mem) else none
  | .deliver frame off len =>
    if s.Delivers port frame off len then
      some (s.deliver frame ⟨frame * frameSize + off, len⟩)
    else none

end Session

/-- The runs of a new source for the datagrams of a port. -/
def sessions (port : UInt16) (umem : ℕ → UInt8) : TransitionSystem Session Action where
  start := { source := new, umem }
  step := Session.step port

/-! ## Descriptors -/

section Descriptors

variable {d : Desc} {umem umem' : ℕ → UInt8} {port : UInt16}

/-- A descriptor of a part of one frame. -/
def Desc.Inside (d : Desc) : Prop :=
  d.addr < nFrames * frameSize ∧ d.addr % frameSize + d.len ≤ frameSize

theorem length_content : (d.content umem).length = d.len := by
  simp [Desc.content]

theorem ofList_content {i : ℕ} (hi : i < d.len) :
    ofList (d.content umem) i = umem (d.addr + i) := by
  rw [ofList, List.getD_eq_getElem _ _ (by rwa [length_content])]
  simp [Desc.content]

theorem content_congr (h : ∀ i < d.len, umem' (d.addr + i) = umem (d.addr + i)) :
    d.content umem' = d.content umem :=
  List.map_congr_left fun i hi => h i (List.mem_range.mp hi)

/-- `bytes` depends on the content of the frame only. -/
theorem bytes_eq_payload
    (h : feedFilter port (ofList (d.content umem)) (d.content umem).length = .redirect) :
    d.bytes umem = payload (d.content umem) := by
  rw [length_content] at h
  have hframe : ∀ i < d.len, umem (d.addr + i) = ofList (d.content umem) i :=
    fun i hi => (ofList_content hi).symm
  have hcontent :=
    (@bytes_congr port (ofList (d.content umem)) (fun i => umem (d.addr + i)) d.len h
      hframe).2
  rw [Desc.bytes, payload, length_content]
  exact hcontent

theorem frameOf_val (h : d.Inside) : (frameOf d.addr).val = d.addr / frameSize := by
  have hlt : d.addr / frameSize < nFrames := (Nat.div_lt_iff_lt_mul (by decide)).mpr h.1
  exact Nat.mod_eq_of_lt hlt

theorem div_frameSize (h : d.Inside) {i : ℕ} (hi : i < d.len) :
    (d.addr + i) / frameSize = frameOf d.addr := by
  rw [frameOf_val h]
  have hlen := h.2
  simp only [frameSize] at hlen ⊢
  omega

theorem inside_of_frame (frame : Fin nFrames) {off len : ℕ} (h : off + len ≤ frameSize)
    (hlen : 0 < len) :
    Desc.Inside ⟨frame * frameSize + off, len⟩ ∧
      frameOf (frame * frameSize + off) = frame := by
  have hframe := frame.isLt
  simp only [nFrames, frameSize] at hframe h
  refine ⟨⟨?_, ?_⟩, Fin.ext ?_⟩
  · simp only [nFrames, frameSize]
    omega
  · simp only [frameSize]
    omega
  · simp only [frameOf, nFrames, frameSize]
    omega

theorem extractAddr_of_inside (h : d.Inside) : extractAddr d.addr = d.addr := by
  have hlt := h.1
  simp only [nFrames, frameSize] at hlt
  exact Nat.mod_eq_of_lt (by omega)

end Descriptors

end AfXdpSource

end Fastbook
