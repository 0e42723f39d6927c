import Fastbook.Feed.MessageBlocks

/-!
# The feed filter

A model of the XDP program `feed_filter` (`transport/feed_filter.bpf.c`), which
redirects the UDP datagrams of the feed's port, and of `Buffer::bytes` of
`AfXDPSource` (`transport/af_xdp_source.hpp`), which finds the payload in a
redirected frame.

The filter checks what `bytes` relies on: in a redirected frame every read of
`bytes` and the span it returns lie inside the frame.  A datagram of the port
that is not a fragment and has no options is redirected, and its payload is
found, however much the frame has been padded.
-/

namespace Fastbook

namespace AfXdpSource

inductive XdpAction where
  /-- `XDP_PASS`: the frame goes to the network stack. -/
  | pass
  /-- The frame goes to the socket. -/
  | redirect
  deriving DecidableEq, Repr

/-- A 16-bit field in network byte order. -/
def ntohs (mem : ℕ → UInt8) (pos : ℕ) : ℕ :=
  (mem pos).toNat * 256 + (mem (pos + 1)).toNat

def ethHeaderSize : ℕ := 14

def ipHeaderSize : ℕ := 20

def udpHeaderSize : ℕ := 8

/-- The low half of the first byte of the IP header. -/
def ihl (mem : ℕ → UInt8) : ℕ :=
  (mem ethHeaderSize).toNat % 16

/-- `feed_filter` on a frame of `len` bytes: every comparison with `data_end`
comes before the fields that it guards. -/
def feedFilter (feedPort : UInt16) (mem : ℕ → UInt8) (len : ℕ) : XdpAction :=
  let ip := ethHeaderSize
  let udp := ip + ipHeaderSize
  if ip > len ∨ ntohs mem 12 ≠ 0x0800 then .pass
  else if udp > len ∨ (mem (ip + 9)).toNat ≠ 17 ∨ ihl mem ≠ 5 ∨
      ntohs mem (ip + 6) &&& 0x3FFF ≠ 0 then .pass
  else if udp + udpHeaderSize > len ∨ ntohs mem (udp + 2) ≠ feedPort.toNat then .pass
  else .redirect

/-- A part of a frame. -/
structure Span where
  off : ℕ
  size : ℕ
  deriving DecidableEq, Repr

/-- `Buffer::bytes`, for a descriptor with the length `len`. -/
def bytes (mem : ℕ → UInt8) (len : ℕ) : Span :=
  let udp := ethHeaderSize + ihl mem * 4
  let udpLen := ntohs mem (udp + 4)
  let payload := udp + udpHeaderSize
  if udpLen < udpHeaderSize ∨ payload + (udpLen - 8) > len then ⟨0, 0⟩
  else ⟨payload, udpLen - udpHeaderSize⟩

/-- The reads of `bytes`: `ip->ihl` and `udp->len`. -/
def bytesReads (mem : ℕ → UInt8) : List Span :=
  [⟨ethHeaderSize, 1⟩, ⟨ethHeaderSize + ihl mem * 4 + 4, 2⟩]

/-- The content of a span. -/
def Span.content (mem : ℕ → UInt8) (s : Span) : List UInt8 :=
  (List.range s.size).map fun i => mem (s.off + i)

/-! ## Redirected frames -/

variable {port : UInt16} {mem mem' : ℕ → UInt8} {len : ℕ}

theorem feedFilter_redirect_iff :
    feedFilter port mem len = .redirect ↔
      42 ≤ len ∧ ntohs mem 12 = 0x0800 ∧ (mem 23).toNat = 17 ∧ ihl mem = 5 ∧
        ntohs mem 20 &&& 0x3FFF = 0 ∧ ntohs mem 36 = port.toNat := by
  simp only [feedFilter]
  constructor
  · intro h
    split_ifs at h with h₁ h₂ h₃
    push Not at h₁ h₂ h₃
    exact ⟨h₃.1, h₁.2, h₂.2.1, h₂.2.2.1, h₂.2.2.2, h₃.2⟩
  · rintro ⟨hlen, hproto, hudp, hihl, hfrag, hport⟩
    rw [if_neg, if_neg, if_neg]
    · push Not
      exact ⟨hlen, hport⟩
    · push Not
      exact ⟨Nat.le_trans (by decide) hlen, hudp, hihl, hfrag⟩
    · push Not
      exact ⟨Nat.le_trans (by decide) hlen, hproto⟩

/-- Nothing outside of a redirected frame is read or returned. -/
theorem bytes_inside (h : feedFilter port mem len = .redirect) :
    (∀ r ∈ bytesReads mem, r.off + r.size ≤ len) ∧
      (bytes mem len).off + (bytes mem len).size ≤ len := by
  obtain ⟨hlen, -, -, hihl, -⟩ := feedFilter_redirect_iff.mp h
  constructor
  · intro r hr
    simp only [bytesReads, hihl, ethHeaderSize, List.mem_cons, List.not_mem_nil,
      or_false] at hr
    rcases hr with rfl | rfl <;> simp only <;> omega
  · simp only [bytes]
    split_ifs with hbad
    · exact Nat.zero_le len
    · simp only [udpHeaderSize] at hbad ⊢
      omega

theorem ntohs_congr {pos : ℕ} (h : ∀ i < len, mem' i = mem i) (hpos : pos + 2 ≤ len) :
    ntohs mem' pos = ntohs mem pos := by
  rw [ntohs, ntohs, h pos (by omega), h (pos + 1) (by omega)]

theorem ihl_congr (h : ∀ i < len, mem' i = mem i) (hlen : ethHeaderSize < len) :
    ihl mem' = ihl mem := by
  rw [ihl, ihl, h ethHeaderSize hlen]

/-- A redirected frame is read alike wherever it lies. -/
theorem bytes_congr (hframe : feedFilter port mem len = .redirect)
    (h : ∀ i < len, mem' i = mem i) :
    (bytes mem' len) = bytes mem len ∧
      (bytes mem' len).content mem' = (bytes mem len).content mem := by
  obtain ⟨hlen, -, -, hihl, -⟩ := feedFilter_redirect_iff.mp hframe
  have hihl' : ihl mem' = ihl mem := ihl_congr h (by rw [ethHeaderSize]; omega)
  have hudp : ntohs mem' (ethHeaderSize + ihl mem * 4 + 4) =
      ntohs mem (ethHeaderSize + ihl mem * 4 + 4) :=
    ntohs_congr h (by rw [hihl, ethHeaderSize]; omega)
  have hspan : bytes mem' len = bytes mem len := by
    simp only [bytes, hihl', hudp]
  refine ⟨hspan, ?_⟩
  rw [hspan]
  have hinside := (bytes_inside hframe).2
  refine List.map_congr_left fun i hi => ?_
  rw [List.mem_range] at hi
  exact h _ (by omega)

/-! ## Frames of datagrams -/

/-- An IPv4 packet with a UDP datagram in an Ethernet frame.  `macs` are the
addresses of the frame, and `addresses` is the checksum and the addresses of the
packet.  The frame may be padded. -/
structure UdpFrame where
  macs : List UInt8
  tos : UInt8
  ident : UInt16
  flags : UInt16
  ttl : UInt8
  addresses : List UInt8
  source : UInt16
  dest : UInt16
  check : UInt16
  payload : List UInt8
  padding : List UInt8
  macs_length : macs.length = 12
  addresses_length : addresses.length = 10
  payload_length : payload.length + 28 < 2 ^ 16

namespace UdpFrame

variable (f : UdpFrame)

def ipHeader : List UInt8 :=
  [0x45, f.tos] ++ beBytes 2 (f.payload.length + 28) ++ beBytes 2 f.ident.toNat ++
    beBytes 2 f.flags.toNat ++ [f.ttl, 17] ++ f.addresses

def udpHeader : List UInt8 :=
  beBytes 2 f.source.toNat ++ beBytes 2 f.dest.toNat ++
    beBytes 2 (f.payload.length + 8) ++ beBytes 2 f.check.toNat

def encode : List UInt8 :=
  f.macs ++ [8, 0] ++ f.ipHeader ++ f.udpHeader ++ f.payload ++ f.padding

/-- Neither a fragment nor the start of one. -/
def Unfragmented : Prop :=
  f.flags.toNat &&& 0x3FFF = 0

end UdpFrame

/-- A frame as it lies in memory. -/
def ofList (l : List UInt8) (i : ℕ) : UInt8 :=
  l.getD i 0

theorem ofList_append {pre l : List UInt8} {n : ℕ} (hpre : pre.length = n) (i : ℕ) :
    ofList (pre ++ l) (n + i) = ofList l i := by
  subst hpre
  rw [ofList, ofList, List.getD_append_right _ _ _ _ (Nat.le_add_right _ _),
    Nat.add_sub_cancel_left]

theorem ofList_at {l : List UInt8} {n : ℕ} (b : UInt8) (pre post : List UInt8)
    (hl : l = pre ++ b :: post) (hpre : pre.length = n) : ofList l n = b := by
  rw [hl]
  exact ofList_append hpre 0

theorem ntohs_at {l : List UInt8} {n : ℕ} (v : ℕ) (pre post : List UInt8)
    (hl : l = pre ++ (beBytes 2 v ++ post)) (hpre : pre.length = n) (hv : v < 2 ^ 16) :
    ntohs (ofList l) n = v := by
  have hhigh : (UInt8.ofNat (v / 256)).toNat = v / 256 := by
    rw [UInt8.toNat_ofNat']
    omega
  have hlow : (UInt8.ofNat v).toNat = v % 256 := UInt8.toNat_ofNat'
  have hfirst : ofList l n = UInt8.ofNat (v / 256) := ofList_at _ _ _ hl hpre
  have hsecond : ofList l (n + 1) = UInt8.ofNat v := by
    rw [hl, ofList_append hpre]
    rfl
  rw [ntohs, hfirst, hsecond, hhigh, hlow]
  omega

namespace UdpFrame

variable {f : UdpFrame}

theorem length_ipHeader : f.ipHeader.length = 20 := by
  simp [ipHeader, length_beBytes, f.addresses_length]

theorem length_udpHeader : f.udpHeader.length = 8 := by
  simp [udpHeader, length_beBytes]

theorem length_encode :
    f.encode.length = 42 + f.payload.length + f.padding.length := by
  simp only [encode, List.length_append, f.macs_length, length_ipHeader,
    length_udpHeader, List.length_cons, List.length_nil]

theorem ntohs_proto : ntohs (ofList f.encode) 12 = 0x0800 := by
  refine ntohs_at 0x0800 f.macs
    (f.ipHeader ++ (f.udpHeader ++ (f.payload ++ f.padding))) ?_
    f.macs_length (by decide)
  simp [encode, beBytes]

theorem ihl_encode : ihl (ofList f.encode) = 5 := by
  have hbyte : ofList f.encode 14 = 0x45 := by
    refine ofList_at 0x45 (f.macs ++ [8, 0])
      (f.ipHeader.tail ++ (f.udpHeader ++ (f.payload ++ f.padding))) ?_ ?_
    · simp [encode, ipHeader]
    · simp [f.macs_length]
  rw [ihl, ethHeaderSize, hbyte]
  rfl

theorem ntohs_flags : ntohs (ofList f.encode) 20 = f.flags.toNat := by
  refine ntohs_at f.flags.toNat
    (f.macs ++ [8, 0] ++ ([0x45, f.tos] ++ beBytes 2 (f.payload.length + 28) ++
      beBytes 2 f.ident.toNat))
    ([f.ttl, 17] ++ f.addresses ++ (f.udpHeader ++ (f.payload ++ f.padding)))
    ?_ ?_ f.flags.toNat_lt
  · simp [encode, ipHeader]
  · simp [f.macs_length, length_beBytes]

theorem protocol_encode : (ofList f.encode 23).toNat = 17 := by
  have hbyte : ofList f.encode 23 = 17 := by
    refine ofList_at 17
      (f.macs ++ [8, 0] ++ ([0x45, f.tos] ++ beBytes 2 (f.payload.length + 28) ++
        beBytes 2 f.ident.toNat ++ beBytes 2 f.flags.toNat ++ [f.ttl]))
      (f.addresses ++ (f.udpHeader ++ (f.payload ++ f.padding))) ?_ ?_
    · simp [encode, ipHeader]
    · simp [f.macs_length, length_beBytes]
  rw [hbyte]
  rfl

theorem ntohs_dest : ntohs (ofList f.encode) 36 = f.dest.toNat := by
  refine ntohs_at f.dest.toNat
    (f.macs ++ [8, 0] ++ f.ipHeader ++ beBytes 2 f.source.toNat)
    (beBytes 2 (f.payload.length + 8) ++ beBytes 2 f.check.toNat ++
      (f.payload ++ f.padding)) ?_ ?_ f.dest.toNat_lt
  · simp [encode, udpHeader]
  · simp [f.macs_length, length_beBytes, length_ipHeader]

theorem ntohs_udpLen : ntohs (ofList f.encode) 38 = f.payload.length + 8 := by
  have hpayload := f.payload_length
  refine ntohs_at (f.payload.length + 8)
    (f.macs ++ [8, 0] ++ f.ipHeader ++ (beBytes 2 f.source.toNat ++
      beBytes 2 f.dest.toNat))
    (beBytes 2 f.check.toNat ++ (f.payload ++ f.padding)) ?_ ?_ (by omega)
  · simp [encode, udpHeader]
  · simp [f.macs_length, length_beBytes, length_ipHeader]

theorem content_encode :
    Span.content (ofList f.encode) ⟨42, f.payload.length⟩ = f.payload := by
  have hbyte : ∀ i, ofList f.encode (42 + i) = ofList (f.payload ++ f.padding) i := by
    intro i
    have hsplit : f.encode = f.macs ++ [8, 0] ++ f.ipHeader ++ f.udpHeader ++
        (f.payload ++ f.padding) := by
      simp [encode]
    rw [hsplit]
    apply ofList_append
    simp [f.macs_length, length_ipHeader, length_udpHeader]
  apply List.ext_getElem
  · simp [Span.content]
  · intro i hi hi'
    simp only [Span.content, List.getElem_map, List.getElem_range, hbyte]
    rw [ofList, List.getD_append _ _ _ _ hi', List.getD_eq_getElem _ _ hi']

end UdpFrame

/-- The filter takes the datagrams of its port that are not fragmented. -/
theorem feedFilter_encode {f : UdpFrame} :
    feedFilter port (ofList f.encode) f.encode.length = .redirect ↔
      f.Unfragmented ∧ f.dest = port := by
  rw [feedFilter_redirect_iff, f.length_encode, f.ntohs_proto, f.protocol_encode,
    f.ihl_encode, f.ntohs_flags, f.ntohs_dest, UInt16.toNat_inj]
  constructor
  · rintro ⟨-, -, -, -, hflags, hdest⟩
    exact ⟨hflags, hdest⟩
  · rintro ⟨hflags, hdest⟩
    exact ⟨by omega, rfl, rfl, rfl, hflags, hdest⟩

/-- The payload of a datagram is found, however its frame has been padded. -/
theorem bytes_encode (f : UdpFrame) :
    (bytes (ofList f.encode) f.encode.length).content (ofList f.encode) =
      f.payload := by
  have hspan : bytes (ofList f.encode) f.encode.length = ⟨42, f.payload.length⟩ := by
    simp only [bytes, f.ihl_encode, f.length_encode]
    simp only [ethHeaderSize, udpHeaderSize, f.ntohs_udpLen]
    rw [if_neg (by omega)]
    rfl
  rw [hspan, f.content_encode]

end AfXdpSource

end Fastbook
