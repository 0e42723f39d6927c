import Fastbook.Feed.AfXdpSource
import Fastbook.Support.Handles

/-!
# The frames of the AF_XDP source

In every state that the source, its caller and the kernel reach, each frame is in
one place, so `~Buffer` always finds room on the fill ring and puts its frame
there.  The datagrams are served in the order in which they arrived, and a `Buffer`
shows the datagram that it was handed out for until it is destroyed.
-/

namespace Fastbook

open Support

namespace AfXdpSource

/-! ## Places -/

inductive Place where
  | fill
  | kernel
  /-- Redirected and not yet served. -/
  | rx
  | buffer (name : ℕ)
  deriving DecidableEq

namespace Session

def loc (s : Session) : Place → List (Fin nFrames)
  | .fill => (s.source.fq.entries s.source.fq.cons).map frameOf
  | .kernel => s.kernel
  | .rx => (s.source.rx.entries s.source.nextRx).map fun d => frameOf d.addr
  | .buffer name => (s.buffers name).join.toList.map fun b => frameOf b.desc.addr

/-- The descriptor shows the datagram that arrived as number `j`. -/
def Shows (s : Session) (d : Desc) (j : ℕ) : Prop :=
  d.Inside ∧ s.arrived[j]? = some (d.content s.umem)

/-- The invariant of the runs. -/
structure Inv (port : UInt16) (s : Session) : Prop where
  placed : Partition s.loc
  asserted : s.failed = false
  filled : s.source.fq.cons ≤ s.source.fq.prod
  addresses : ∀ a ∈ s.source.fq.entries s.source.fq.cons, a < nFrames * frameSize
  /-- What is left of the batch. -/
  batch : s.source.batchRx ≤ s.source.peekedRx ∧
    s.source.nextRx + (s.source.peekedRx - s.source.batchRx) = s.source.cachedCons
  idle : s.rearming = false →
    s.source.rx.cons + s.source.peekedRx = s.source.cachedCons
  released : s.rearming = true →
    s.source.batchRx = s.source.peekedRx ∧ s.source.rx.cons = s.source.cachedCons
  peeked : s.source.cachedCons ≤ s.source.rx.prod
  redirected : ∀ data ∈ s.arrived, feedFilter port (ofList data) data.length = .redirect
  count : s.arrived.length = s.source.rx.prod
  waiting : ∀ j, s.source.nextRx ≤ j → j < s.source.rx.prod →
    s.Shows (s.source.rx.get j) j
  held : ∀ name b, s.buffers name = some (some b) →
    b.number < s.source.nextRx ∧ s.Shows b.desc b.number
  order : s.served = (s.arrived.take s.source.nextRx).map payload

/-- The oldest datagram that waits becomes a new `Buffer`. -/
def Handed (s s' : Session) (name : ℕ) : Prop :=
  ∃ d, s'.buffers = Function.update s.buffers name (some (some ⟨d, s.served.length⟩)) ∧
    s'.served = s.served ++ [d.bytes s.umem] ∧
    s.loc .rx = frameOf d.addr :: s'.loc .rx ∧
    ∀ p, p ≠ .rx → p ≠ .buffer name → s'.loc p = s.loc p

/-- What a step does for the caller.  The frame of a `Buffer` that is destroyed goes
to the fill ring, and moving exchanges what two of the objects hold. -/
def Effect (s s' : Session) : Action → Prop
  | .release =>
    s'.source.rx.cons = s.source.nextRx ∧ s'.loc = s.loc ∧ s'.buffers = s.buffers ∧
      s'.served = s.served
  | .peek name n =>
    if n = 0 then s'.loc = s.loc ∧ s'.buffers = s.buffers ∧ s'.served = s.served
    else s.Handed s' name
  | .serve name => s.Handed s' name
  | .create name =>
    s'.source = s.source ∧ s'.buffers = Function.update s.buffers name (some none) ∧
      s'.served = s.served
  | .destroy name =>
    s'.buffers = Function.update s.buffers name none ∧
    s'.loc .fill = s.loc .fill ++ s.loc (.buffer name) ∧
    (∀ p, p ≠ .fill → p ≠ .buffer name → s'.loc p = s.loc p) ∧ s'.served = s.served
  | .construct name other | .assign name other =>
    s'.source = s.source ∧
    (∀ n, (s'.buffers n).join = (s.buffers (Equiv.swap name other n)).join) ∧
    s'.served = s.served
  | .take | .receive _ _ | .deliver _ _ _ => s'.buffers = s.buffers ∧ s'.served = s.served

variable {port : UInt16} {s s' : Session} {name : ℕ}

theorem Inv.cons_le (h : s.Inv port) : s.source.rx.cons ≤ s.source.nextRx := by
  have hbatch := h.batch
  cases hrearming : s.rearming with
  | false =>
    have hidle := h.idle hrearming
    omega
  | true =>
    have hreleased := h.released hrearming
    omega

theorem Inv.nextRx_le (h : s.Inv port) : s.source.nextRx ≤ s.source.rx.prod := by
  have hbatch := h.batch
  have hpeeked := h.peeked
  omega

theorem Inv.length_served (h : s.Inv port) : s.served.length = s.source.nextRx := by
  have hle := h.nextRx_le
  have hcount := h.count
  rw [h.order, List.length_map, List.length_take]
  omega

/-- Other arrivals leave a datagram as it is. -/
theorem Shows.append {d : Desc} {j : ℕ} (h : s.Shows d j) (data : List UInt8)
    (harrived : s'.arrived = s.arrived ++ [data]) (humem : s'.umem = s.umem) :
    s'.Shows d j := by
  refine ⟨h.1, ?_⟩
  have hlt : j < s.arrived.length := by
    have hsome := h.2
    exact (List.getElem?_eq_some_iff.mp hsome).1
  rw [harrived, humem, List.getElem?_append_left hlt]
  exact h.2

/-- Writing to another frame leaves a datagram as it is. -/
theorem Shows.receive {d : Desc} {j : ℕ} (h : s.Shows d j) {frame : Fin nFrames}
    {mem : ℕ → UInt8} (hframe : frameOf d.addr ≠ frame) :
    (s.receive frame mem).Shows d j := by
  refine ⟨h.1, ?_⟩
  have hcontent : d.content (s.receive frame mem).umem = d.content s.umem := by
    refine content_congr fun i hi => ?_
    apply if_neg
    rw [div_frameSize h.1 hi]
    exact fun heq => hframe (Fin.ext heq)
  rw [hcontent]
  exact h.2

/-! ## The steps of the program -/

theorem inv_release (h : s.Inv port) (hidle : s.rearming = false)
    (hused : s.source.batchRx = s.source.peekedRx) :
    Inv port { s with source := s.source.release, rearming := true } := by
  have hcons := h.idle hidle
  unfold release
  split_ifs with hpeeked
  · exact { h with
      idle := fun hidle' => by cases hidle'
      released := fun _ => ⟨hused, hcons⟩ }
  · push Not at hpeeked
    rw [hpeeked] at hcons
    exact { h with
      idle := fun hidle' => by cases hidle'
      released := fun _ => ⟨hused, hcons⟩ }

/-- Everything before the new batch has been served. -/
theorem Inv.nextRx_peek (h : s.Inv port) (hbusy : s.rearming = true) (n : ℕ) :
    (s.source.peek n).nextRx = s.source.nextRx := by
  obtain ⟨hused, hcons⟩ := h.released hbusy
  have hbatch := h.batch
  simp only [AfXdpSource.peek]
  split_ifs <;> omega

theorem Inv.loc_peek (h : s.Inv port) (hbusy : s.rearming = true) (n : ℕ) :
    Session.loc { s with source := s.source.peek n, rearming := false } = s.loc := by
  funext p
  cases p with
  | fill => rfl
  | kernel => rfl
  | rx => simp only [loc, h.nextRx_peek hbusy]; rfl
  | buffer n => rfl

theorem inv_peeked (h : s.Inv port) (hbusy : s.rearming = true) {n : ℕ}
    (hn : s.source.Peeks n) :
    Inv port { s with source := s.source.peek n, rearming := false } := by
  obtain ⟨hused, hcons⟩ := h.released hbusy
  have hbatch := h.batch
  have hnext := h.nextRx_peek hbusy n
  exact {
    placed := h.loc_peek hbusy n ▸ h.placed
    asserted := h.asserted
    filled := h.filled
    addresses := h.addresses
    batch := by
      rw [hnext]
      simp only [AfXdpSource.peek]
      omega
    idle := fun _ => by
      simp only [AfXdpSource.peek]
      omega
    released := fun hbusy' => by cases hbusy'
    peeked := hn.2.1
    redirected := h.redirected
    count := h.count
    waiting := by
      rw [hnext]
      exact h.waiting
    held := by
      rw [hnext]
      exact h.held
    order := by
      rw [hnext]
      exact h.order }

theorem loc_serve (s : Session) (name : ℕ) :
    (s.serve name).loc = Exclusive.move s.loc .rx (.buffer name)
      ((s.source.rx.entries (s.source.nextRx + 1)).map fun d => frameOf d.addr)
      [frameOf (s.source.rx.get s.source.nextRx).addr] := by
  funext p
  cases p with
  | fill => simp [loc, serve, AfXdpSource.take, Exclusive.move]
  | kernel => simp [loc, serve, AfXdpSource.take, Exclusive.move]
  | rx => simp [loc, serve, AfXdpSource.take, Exclusive.move]
  | buffer n =>
    by_cases hn : n = name
    · subst hn
      simp [loc, serve, AfXdpSource.take, Exclusive.move]
    · simp [loc, serve, AfXdpSource.take, Exclusive.move, hn]

theorem loc_rx_of_lt (hlt : s.source.nextRx < s.source.rx.prod) :
    s.loc .rx = frameOf (s.source.rx.get s.source.nextRx).addr ::
      (s.source.rx.entries (s.source.nextRx + 1)).map fun d => frameOf d.addr := by
  rw [loc, Ring.entries_of_lt hlt, List.map_cons]

theorem inv_serve (h : s.Inv port) (hidle : s.rearming = false)
    (hname : s.buffers name = none) (hleft : s.source.batchRx ≠ s.source.peekedRx) :
    (s.serve name).Inv port := by
  have hbatch := h.batch
  have hpeeked := h.peeked
  have hlt : s.source.nextRx < s.source.rx.prod := by omega
  have hshows := h.waiting _ le_rfl hlt
  have hrx := loc_rx_of_lt hlt
  have hempty : s.loc (.buffer name) = [] := by
    rw [loc, hname]
    rfl
  have hplaced : Partition (s.serve name).loc := by
    rw [loc_serve]
    refine h.placed.moved (by simp)
      (l := [frameOf (s.source.rx.get s.source.nextRx).addr]) (by rw [hrx]; rfl) ?_
    rw [hempty, List.append_nil]
  exact {
    placed := hplaced
    asserted := h.asserted
    filled := h.filled
    addresses := h.addresses
    batch := by
      simp only [serve, AfXdpSource.take]
      omega
    idle := h.idle
    released := fun hbusy => by
      rw [show (s.serve name).rearming = false from hidle] at hbusy
      cases hbusy
    peeked := h.peeked
    redirected := h.redirected
    count := h.count
    waiting := fun j hj hprod => h.waiting j (Nat.le_of_succ_le hj) hprod
    held := by
      intro n b hb
      by_cases hn : n = name
      · subst hn
        obtain rfl : ⟨s.source.rx.get s.source.nextRx, s.served.length⟩ = b := by
          simpa [serve, AfXdpSource.take] using hb
        rw [h.length_served]
        exact ⟨Nat.lt_succ_self _, hshows⟩
      · have hold : s.buffers n = some (some b) := by
          simpa [serve, hn] using hb
        exact ⟨(h.held n b hold).1.trans (Nat.lt_succ_self _), (h.held n b hold).2⟩
    order := by
      have hbytes := bytes_eq_payload (h.redirected _ (List.mem_of_getElem? hshows.2))
      have htake : s.arrived.take (s.source.nextRx + 1) = s.arrived.take s.source.nextRx ++
          [(s.source.rx.get s.source.nextRx).content s.umem] := by
        rw [List.take_add_one, hshows.2]
        rfl
      simp only [serve, AfXdpSource.take]
      rw [htake, List.map_append, ← h.order, List.map_singleton, hbytes] }

/-- A frame that a `Buffer` holds is not on the fill ring, which so has room. -/
theorem Inv.room_pos (h : s.Inv port) {b : Held} (hname : s.buffers name = some (some b)) :
    0 < s.source.fq.room := by
  have hheld : frameOf b.desc.addr ∈ s.loc (.buffer name) := by
    rw [loc, hname]
    exact List.mem_singleton.mpr rfl
  have hnot : frameOf b.desc.addr ∉ s.loc .fill := by
    intro hfill
    cases h.placed.eq_of_mem hheld hfill
  have hcard := (List.nodup_cons.mpr ⟨hnot, h.placed.nodup .fill⟩).length_le_card
  rw [Fintype.card_fin, List.length_cons, loc, List.length_map, Ring.length_entries] at hcard
  have hfilled := h.filled
  unfold Ring.room
  omega

/-- An object without a frame comes or goes. -/
theorem loc_update_none {held : Option (Option Held)} (hname : (s.buffers name).join = none)
    (hheld : held.join = none) :
    Session.loc { s with buffers := Function.update s.buffers name held } = s.loc := by
  funext p
  cases p with
  | fill => rfl
  | kernel => rfl
  | rx => rfl
  | buffer n =>
    by_cases hn : n = name
    · subst hn
      simp [loc, hname, hheld]
    · simp [loc, hn]

theorem inv_update_none (h : s.Inv port) {held : Option (Option Held)}
    (hname : (s.buffers name).join = none) (hheld : held.join = none) :
    Inv port { s with buffers := Function.update s.buffers name held } := by
  have hplaced := h.placed
  rw [← loc_update_none hname hheld] at hplaced
  refine { h with placed := hplaced, held := ?_ }
  intro n b hb
  change Function.update s.buffers name held n = some (some b) at hb
  by_cases hn : n = name
  · subst hn
    rw [Function.update_self] at hb
    rw [hb] at hheld
    cases hheld
  · rw [Function.update_of_ne hn] at hb
    exact h.held n b hb

theorem loc_destroy_some (b : Held) (h : s.Inv port) (hroom : 0 < s.source.fq.room)
    (hb : b.desc.Inside) :
    (s.destroy name (some b)).loc = Exclusive.move s.loc (.buffer name) .fill []
      (s.loc .fill ++ [frameOf b.desc.addr]) := by
  have hentries := Ring.entries_push (x := b.desc.addr) hroom le_rfl h.filled
  simp only [destroy, if_pos hroom, extractAddr_of_inside hb]
  funext p
  cases p with
  | fill => simp [loc, Exclusive.move, hentries]
  | kernel => simp [loc, Exclusive.move]
  | rx => simp [loc, Exclusive.move]
  | buffer n =>
    by_cases hn : n = name
    · subst hn
      simp [loc, Exclusive.move]
    · simp [loc, Exclusive.move, hn]

theorem inv_destroy (h : s.Inv port) {held : Option Held}
    (hname : s.buffers name = some held) : (s.destroy name held).Inv port := by
  cases held with
  | none => exact inv_update_none h (by rw [hname]; rfl) rfl
  | some b =>
    have hroom := h.room_pos hname
    have hinside := (h.held name b hname).2.1
    have hplaced : Partition (s.destroy name (some b)).loc := by
      rw [loc_destroy_some b h hroom hinside]
      refine h.placed.moved (by simp) (l := [frameOf b.desc.addr]) ?_ ?_
      · rw [loc, hname]
        rfl
      · exact List.perm_append_comm
    have heq : s.destroy name (some b) =
        { s with
          buffers := Function.update s.buffers name none
          source.fq := s.source.fq.push b.desc.addr } := by
      simp only [destroy, if_pos hroom, extractAddr_of_inside hinside]
    rw [heq] at hplaced ⊢
    have hfilled := h.filled
    refine { h with placed := hplaced, filled := ?_, addresses := ?_, held := ?_ }
    · simp only [Ring.push_cons, Ring.push_prod]
      omega
    · intro a ha
      rw [Ring.push_cons, Ring.entries_push hroom le_rfl hfilled, List.mem_append,
        List.mem_singleton] at ha
      rcases ha with ha | rfl
      · exact h.addresses a ha
      · exact hinside.1
    · intro n b' hb'
      by_cases hn : n = name
      · subst hn
        simp at hb'
      · simp only [Function.update_of_ne hn] at hb'
        exact h.held n b' hb'

/-- Moving between two objects exchanges what they hold. -/
theorem inv_swap (h : s.Inv port) {other : ℕ} {buffers : ℕ → Option (Option Held)}
    (hjoin : ∀ n, (buffers n).join = (s.buffers (Equiv.swap name other n)).join) :
    Inv port { s with buffers } := by
  refine { h with placed := ?_, held := ?_ }
  · refine h.placed.exchanged Place.buffer name other
      (fun _ _ heq => by cases heq; rfl) (fun p hp => ?_) fun n => ?_
    · cases p with
      | buffer n => exact absurd rfl (hp n)
      | _ => rfl
    · simp only [loc, hjoin]
  · intro n b hb
    have hn := hjoin n
    change buffers n = some (some b) at hb
    rw [hb] at hn
    exact h.held _ b (Option.join_eq_some_iff.mp hn.symm)

theorem exchange_of_construct {other : ℕ}
    (hstep : s.step port (.construct name other) = some s') :
    ∃ buffers, s' = { s with buffers } ∧
      ∀ n, (buffers n).join = (s.buffers (Equiv.swap name other n)).join := by
  rw [Session.step] at hstep
  split at hstep
  · next held _ hname hother =>
    cases hstep
    exact ⟨_, rfl, join_construct hname hother⟩
  · cases hstep

theorem exchange_of_assign {rhs : ℕ} (hstep : s.step port (.assign name rhs) = some s') :
    ∃ buffers, s' = { s with buffers } ∧
      ∀ n, (buffers n).join = (s.buffers (Equiv.swap name rhs n)).join := by
  rw [Session.step] at hstep
  split at hstep
  · next held held' _ hname hrhs =>
    cases hstep
    exact ⟨_, rfl, join_assign hname hrhs⟩
  · cases hstep

/-! ## What a step does -/

theorem handed_serve (name : ℕ) (hlt : s.source.nextRx < s.source.rx.prod) :
    s.Handed (s.serve name) name := by
  refine ⟨s.source.rx.get s.source.nextRx, rfl, rfl, loc_rx_of_lt hlt, ?_⟩
  intro p hrx hbuffer
  rw [loc_serve]
  exact Exclusive.move_of_ne hrx hbuffer

theorem Inv.effect_peek (h : s.Inv port) (hbusy : s.rearming = true) {n : ℕ}
    (hn : s.source.Peeks n) : s.Effect (s.peek name n) (.peek name n) := by
  rw [Effect, Session.peek]
  split_ifs with hzero
  · exact ⟨h.loc_peek hbusy n, rfl, rfl⟩
  · have hreleased := h.released hbusy
    have hbatch := h.batch
    have hpeeks := hn.2.1
    have hlt : (s.source.peek n).nextRx < s.source.rx.prod := by
      rw [h.nextRx_peek hbusy]
      omega
    have hhanded := handed_serve name
      (s := { s with source := s.source.peek n, rearming := false }) hlt
    rw [Handed, h.loc_peek hbusy n] at hhanded
    exact hhanded

theorem Inv.effect_destroy (h : s.Inv port) {held : Option Held}
    (hname : s.buffers name = some held) : s.Effect (s.destroy name held) (.destroy name) := by
  cases held with
  | none =>
    have hloc : (s.destroy name none).loc = s.loc :=
      loc_update_none (by rw [hname]; rfl) rfl
    have hempty : s.loc (.buffer name) = [] := by
      rw [loc, hname]
      rfl
    rw [Effect, hloc, hempty, List.append_nil]
    exact ⟨rfl, rfl, fun _ _ _ => rfl, rfl⟩
  | some b =>
    have hroom := h.room_pos hname
    have hheld : s.loc (.buffer name) = [frameOf b.desc.addr] := by
      rw [loc, hname]
      rfl
    have hstay : (s.destroy name (some b)).buffers = Function.update s.buffers name none ∧
        (s.destroy name (some b)).served = s.served := by
      rw [Session.destroy, if_pos hroom]
      exact ⟨rfl, rfl⟩
    rw [Effect, loc_destroy_some b h hroom (h.held name b hname).2.1, hheld]
    refine ⟨hstay.1, Function.update_self _ _ _, ?_, hstay.2⟩
    intro p hfill hbuffer
    exact Exclusive.move_of_ne hbuffer hfill

theorem Inv.effect (h : s.Inv port) {a : Action} (hstep : s.step port a = some s') :
    s.Effect s' a := by
  cases a with
  | release =>
    rw [Session.step, Option.ite_none_right_eq_some] at hstep
    obtain ⟨⟨hidle, hused⟩, hstep⟩ := hstep
    cases hstep
    have hcons := h.idle hidle
    have hbatch := h.batch
    rw [Effect, AfXdpSource.release]
    split_ifs with hpeeked
    · refine ⟨?_, rfl, rfl, rfl⟩
      change s.source.rx.cons + s.source.peekedRx = _
      omega
    · refine ⟨?_, rfl, rfl, rfl⟩
      change s.source.rx.cons = _
      omega
  | peek name n =>
    rw [Session.step, Option.ite_none_right_eq_some] at hstep
    obtain ⟨⟨hbusy, -, hn⟩, hstep⟩ := hstep
    cases hstep
    exact h.effect_peek hbusy hn
  | serve name =>
    rw [Session.step, Option.ite_none_right_eq_some] at hstep
    obtain ⟨⟨-, -, hleft⟩, hstep⟩ := hstep
    cases hstep
    have hbatch := h.batch
    have hpeeked := h.peeked
    exact handed_serve name (by omega)
  | create name =>
    rw [Session.step, Option.ite_none_right_eq_some] at hstep
    obtain ⟨-, hstep⟩ := hstep
    cases hstep
    exact ⟨rfl, rfl, rfl⟩
  | destroy name =>
    rw [Session.step] at hstep
    split at hstep
    · next held _ hname =>
      cases hstep
      exact h.effect_destroy hname
    · cases hstep
  | construct name other =>
    obtain ⟨buffers, rfl, hjoin⟩ := exchange_of_construct hstep
    exact ⟨rfl, hjoin, rfl⟩
  | assign name rhs =>
    obtain ⟨buffers, rfl, hjoin⟩ := exchange_of_assign hstep
    exact ⟨rfl, hjoin, rfl⟩
  | take | receive | deliver =>
    rw [Session.step, Option.ite_none_right_eq_some] at hstep
    obtain ⟨-, hstep⟩ := hstep
    cases hstep
    exact ⟨rfl, rfl⟩

/-! ## The steps of the kernel -/

theorem inv_take (h : s.Inv port) (hlt : s.source.fq.cons < s.source.fq.prod) :
    s.take.Inv port := by
  have hfill : s.loc .fill = frameOf (s.source.fq.get s.source.fq.cons) ::
      (s.source.fq.entries (s.source.fq.cons + 1)).map frameOf := by
    rw [loc, Ring.entries_of_lt hlt, List.map_cons]
  have hloc : s.take.loc = Exclusive.move s.loc .fill .kernel
      ((s.source.fq.entries (s.source.fq.cons + 1)).map frameOf)
      (frameOf (s.source.fq.get s.source.fq.cons) :: s.kernel) := by
    funext p
    cases p with
    | fill => simp [loc, Session.take, Exclusive.move]
    | kernel => simp [loc, Session.take, Exclusive.move]
    | rx => simp [loc, Session.take, Exclusive.move]
    | buffer n => simp [loc, Session.take, Exclusive.move]
  have hplaced : Partition s.take.loc := by
    rw [hloc]
    exact h.placed.moved (by simp)
      (l := [frameOf (s.source.fq.get s.source.fq.cons)]) (by rw [hfill]; rfl) (.refl _)
  refine { h with placed := hplaced, filled := hlt, addresses := ?_ }
  intro a ha
  apply h.addresses
  rw [Ring.entries_of_lt hlt]
  exact List.mem_cons_of_mem _ ha

/-- What the kernel writes to is neither waiting nor held. -/
theorem inv_receive (h : s.Inv port) {frame : Fin nFrames} (hframe : frame ∈ s.kernel)
    (mem : ℕ → UInt8) : (s.receive frame mem).Inv port := by
  have hother : ∀ {p : Place} {f : Fin nFrames}, p ≠ .kernel → f ∈ s.loc p → f ≠ frame := by
    rintro p f hp hf rfl
    exact hp (h.placed.eq_of_mem hf hframe)
  refine { h with waiting := ?_, held := ?_ }
  · intro j hj hlt
    refine (h.waiting j hj hlt).receive (hother (p := .rx) (by simp) ?_)
    rw [loc]
    exact List.mem_map_of_mem (Ring.mem_entries.mpr ⟨j, hj, hlt, rfl⟩)
  · intro n b hb
    have hb' : s.buffers n = some (some b) := hb
    refine ⟨(h.held n b hb').1, (h.held n b hb').2.receive ?_⟩
    refine hother (p := .buffer n) (by simp) ?_
    rw [loc, hb']
    exact List.mem_singleton.mpr rfl

theorem inv_deliver (h : s.Inv port) {frame : Fin nFrames} {off len : ℕ}
    (hd : s.Delivers port frame off len) :
    (s.deliver frame ⟨frame * frameSize + off, len⟩).Inv port := by
  obtain ⟨hframe, hoff, hroom, hfilter⟩ := hd
  have hlen := (feedFilter_redirect_iff.mp hfilter).1
  obtain ⟨hinside, hof⟩ := inside_of_frame frame hoff (by omega)
  generalize hdesc : (⟨frame * frameSize + off, len⟩ : Desc) = d at *
  have hof' : frameOf d.addr = frame := by rw [← hdesc]; exact hof
  have hlen' : d.len = len := by rw [← hdesc]
  have hentries := Ring.entries_push (x := d) hroom h.cons_le h.nextRx_le
  have hcount := h.count
  have hloc : (s.deliver frame d).loc = Exclusive.move s.loc .kernel .rx
      (s.kernel.erase frame) (s.loc .rx ++ [frame]) := by
    funext p
    cases p with
    | fill => simp [loc, Session.deliver, Exclusive.move]
    | kernel => simp [loc, Session.deliver, Exclusive.move]
    | rx => simp [loc, Session.deliver, Exclusive.move, hentries, hof']
    | buffer n => simp [loc, Session.deliver, Exclusive.move]
  have hplaced : Partition (s.deliver frame d).loc := by
    rw [hloc]
    exact h.placed.moved (by simp) (l := [frame]) (List.perm_cons_erase hframe)
      List.perm_append_comm
  refine { h with
    placed := hplaced, peeked := ?_, redirected := ?_, count := ?_, waiting := ?_,
    held := ?_, order := ?_ }
  · exact h.peeked.trans (Nat.le_succ _)
  · intro data hdata
    rcases List.mem_append.mp hdata with hdata | hdata
    · exact h.redirected data hdata
    · obtain rfl := List.mem_singleton.mp hdata
      rw [length_content, hlen']
      exact hfilter
  · simp [Session.deliver, hcount]
  · intro j hj hlt
    rcases Nat.lt_succ_iff_lt_or_eq.mp hlt with hlt | rfl
    · have hget : (s.source.rx.push d).get j = s.source.rx.get j :=
        Ring.get_push_of_lt hroom (h.cons_le.trans hj) hlt
      change (s.deliver frame d).Shows ((s.source.rx.push d).get j) j
      rw [hget]
      exact (h.waiting j hj hlt).append _ rfl rfl
    · have hget : (s.source.rx.push d).get s.source.rx.prod = d := Ring.get_push_self
      have hnew : (s.arrived ++ [d.content s.umem])[s.source.rx.prod]? =
          some (d.content s.umem) := by
        rw [← hcount, List.getElem?_concat_length]
      change (s.deliver frame d).Shows ((s.source.rx.push d).get s.source.rx.prod) _
      rw [hget]
      exact ⟨hinside, hnew⟩
  · intro n b hb
    exact ⟨(h.held n b hb).1, (h.held n b hb).2.append _ rfl rfl⟩
  · have hle := h.nextRx_le
    rw [← hcount] at hle
    change s.served = ((s.arrived ++ [d.content s.umem]).take s.source.nextRx).map payload
    rw [List.take_append_of_le_length hle]
    exact h.order

/-! ## The runs -/

theorem loc_start (umem : ℕ → UInt8) :
    (sessions port umem).start.loc .fill = List.finRange nFrames := by
  obtain ⟨-, hcons, hentries⟩ := filled_spec (Nat.le_refl nFrames)
  change ((filled nFrames).entries (filled nFrames).cons).map
    frameOf = _
  have hid : ∀ f : Fin nFrames, frameOf (f * frameSize) = f := by
    intro f
    have hlt : 0 + 1 ≤ frameSize := by decide
    have hf := (inside_of_frame f hlt Nat.one_pos).2
    rwa [Nat.add_zero] at hf
  rw [hcons, hentries, ← List.map_coe_finRange_eq_range, List.map_map, List.map_map]
  conv_rhs => rw [← List.map_id (List.finRange nFrames)]
  exact List.map_congr_left fun f _ => hid f

theorem inv_start (umem : ℕ → UInt8) : (sessions port umem).start.Inv port := by
  obtain ⟨hprod, hcons, hentries⟩ := filled_spec (Nat.le_refl nFrames)
  have hloc : ∀ p f, f ∈ (sessions port umem).start.loc p ↔ p = .fill := by
    intro p f
    cases p with
    | fill =>
      rw [loc_start]
      exact ⟨fun _ => rfl, fun _ => List.mem_finRange f⟩
    | kernel => simp [loc, sessions]
    | rx => simp [loc, sessions, new, Ring.entries]
    | buffer name => simp [loc, sessions]
  refine {
    placed := ⟨⟨?_, ?_⟩, fun f => ⟨.fill, (hloc .fill f).mpr rfl⟩⟩
    asserted := rfl
    filled := ?_
    addresses := ?_
    batch := ⟨le_rfl, rfl⟩
    idle := fun _ => rfl
    released := fun hbusy => by cases hbusy
    peeked := le_rfl
    redirected := fun data hdata => by cases hdata
    count := rfl
    waiting := fun j _ hlt => absurd hlt (Nat.not_lt_zero j)
    held := fun name b hb => by cases hb
    order := rfl }
  · intro p
    cases p with
    | fill =>
      rw [loc_start]
      exact List.nodup_finRange _
    | kernel => exact List.nodup_nil
    | rx => exact List.nodup_nil
    | buffer name => exact List.nodup_nil
  · intro p q f hp hq
    rw [(hloc p f).mp hp, (hloc q f).mp hq]
  · change (filled nFrames).cons ≤ (filled nFrames).prod
    omega
  · intro a ha
    change a ∈ (filled nFrames).entries (filled nFrames).cons at ha
    rw [hcons, hentries, List.mem_map] at ha
    obtain ⟨i, hi, rfl⟩ := ha
    exact Nat.mul_lt_mul_of_pos_right (List.mem_range.mp hi) (by decide)

theorem Inv.step (h : s.Inv port) {a : Action} (hstep : s.step port a = some s') :
    s'.Inv port := by
  cases a with
  | release =>
    rw [Session.step, Option.ite_none_right_eq_some] at hstep
    obtain ⟨⟨hidle, hused⟩, hstep⟩ := hstep
    cases hstep
    exact inv_release h hidle hused
  | peek name n =>
    rw [Session.step, Option.ite_none_right_eq_some] at hstep
    obtain ⟨⟨hbusy, hname, hn⟩, hstep⟩ := hstep
    cases hstep
    have hpeeked := inv_peeked h hbusy hn
    unfold Session.peek
    split_ifs with hzero
    · exact hpeeked
    · exact inv_serve hpeeked rfl hname fun heq => hzero heq.symm
  | serve name =>
    rw [Session.step, Option.ite_none_right_eq_some] at hstep
    obtain ⟨⟨hidle, hname, hleft⟩, hstep⟩ := hstep
    cases hstep
    exact inv_serve h hidle hname hleft
  | create name =>
    rw [Session.step, Option.ite_none_right_eq_some] at hstep
    obtain ⟨⟨-, hname⟩, hstep⟩ := hstep
    cases hstep
    exact inv_update_none h (by rw [hname]; rfl) rfl
  | destroy name =>
    rw [Session.step] at hstep
    split at hstep
    · next held _ hname =>
      cases hstep
      exact inv_destroy h hname
    · cases hstep
  | construct name other =>
    obtain ⟨buffers, rfl, hjoin⟩ := exchange_of_construct hstep
    exact inv_swap h hjoin
  | assign name rhs =>
    obtain ⟨buffers, rfl, hjoin⟩ := exchange_of_assign hstep
    exact inv_swap h hjoin
  | take =>
    rw [Session.step, Option.ite_none_right_eq_some] at hstep
    obtain ⟨hlt, hstep⟩ := hstep
    cases hstep
    exact inv_take h hlt
  | receive frame mem =>
    rw [Session.step, Option.ite_none_right_eq_some] at hstep
    obtain ⟨hframe, hstep⟩ := hstep
    cases hstep
    exact inv_receive h hframe mem
  | deliver frame off len =>
    rw [Session.step, Option.ite_none_right_eq_some] at hstep
    obtain ⟨hd, hstep⟩ := hstep
    cases hstep
    exact inv_deliver h hd

theorem inv_of_reachable {umem : ℕ → UInt8} (h : (sessions port umem).Reachable s) :
    s.Inv port :=
  h.invariant (inv_start umem) fun _ _ _ hs hstep => hs.step hstep

theorem Inv.served_getElem (h : s.Inv port) {b : Held}
    (hname : s.buffers name = some (some b)) :
    s.served[b.number]? = some (b.desc.bytes s.umem) := by
  obtain ⟨hlt, -, harrived⟩ := h.held name b hname
  have hbytes := bytes_eq_payload (h.redirected _ (List.mem_of_getElem? harrived))
  rw [h.order, List.getElem?_map, List.getElem?_take_of_lt hlt, harrived, hbytes]
  rfl

end Session

/-- In every run each frame is in one place, and `~Buffer` finds room on the fill
ring.  The datagrams are served in the order of their arrival, each of them once,
and `next` gives up only after the last of them; a `Buffer` shows its datagram
until it is destroyed.  Every step does its part: `next` hands out the oldest datagram
that waits, and a `Buffer` that is destroyed gives its frame to the fill ring. -/
theorem frames_conserved (port : UInt16) (umem : ℕ → UInt8) {s : Session}
    (h : (sessions port umem).Reachable s) :
    (∀ frame, ∃! p, frame ∈ s.loc p) ∧ (∀ p, (s.loc p).Nodup) ∧ s.failed = false ∧
    s.served = (s.arrived.take s.source.nextRx).map payload ∧
    (s.rearming = true → s.source.Peeks 0 → s.served = s.arrived.map payload) ∧
    (∀ name b, s.buffers name = some (some b) →
      b.desc.Inside ∧ s.served[b.number]? = some (b.desc.bytes s.umem)) ∧
    (∀ frames : List UdpFrame, s.arrived = frames.map UdpFrame.encode →
      (∀ f ∈ frames, f.Unfragmented ∧ f.dest = port) ∧
        s.served = (frames.take s.source.nextRx).map UdpFrame.payload) ∧
    ∀ a s', s.step port a = some s' → s.Effect s' a := by
  have hinv := Session.inv_of_reachable h
  refine ⟨hinv.placed.existsUnique_mem, hinv.placed.nodup, hinv.asserted, hinv.order, ?_, ?_,
    ?_, fun a s' hstep => hinv.effect hstep⟩
  · intro hbusy hzero
    have hbatch := hinv.batch
    have hused := (hinv.released hbusy).1
    have hnone := hzero.2.2 rfl
    have hcount := hinv.count
    rw [hinv.order, List.take_of_length_le (by omega)]
  · intro name b hname
    exact ⟨(hinv.held name b hname).2.1, hinv.served_getElem hname⟩
  · intro frames harrived
    refine ⟨?_, ?_⟩
    · intro f hf
      apply feedFilter_encode.mp
      apply hinv.redirected
      rw [harrived]
      exact List.mem_map_of_mem hf
    · rw [hinv.order, harrived, ← List.map_take, List.map_map]
      exact List.map_congr_left fun f _ => bytes_encode f

/-- Three bytes for the port 26477, in a padded frame. -/
def threeBytes : UdpFrame where
  macs := List.replicate 12 0xFF
  tos := 0
  ident := 7
  flags := 0x4000
  ttl := 64
  addresses := List.replicate 10 0
  source := 1024
  dest := 26477
  check := 0
  payload := [1, 2, 3]
  padding := List.replicate 15 0
  macs_length := rfl
  addresses_length := rfl
  payload_length := by decide

/-- The kernel has received it in the first frame, after the headroom. -/
def receivedThree : Session :=
  (sessions 26477 fun _ => 0).start.take.receive (frameOf 0)
    fun a => ofList threeBytes.encode (a - 256)

/-- It has been delivered. -/
def deliveredThree : Session :=
  receivedThree.deliver (frameOf 0) ⟨frameOf 0 * frameSize + 256, 60⟩

/-- `next` has handed it out. -/
def servedThree : Session :=
  Session.peek
    { deliveredThree with source := deliveredThree.source.release, rearming := true } 0 1

section Steps

variable {s : Session} {port : UInt16} {umem : ℕ → UInt8}

theorem step_take (h : s.source.fq.cons < s.source.fq.prod) :
    (sessions port umem).step s .take = some s.take :=
  if_pos h

theorem step_receive {frame : Fin nFrames} (h : frame ∈ s.kernel) (mem : ℕ → UInt8) :
    (sessions port umem).step s (.receive frame mem) = some (s.receive frame mem) :=
  if_pos h

theorem step_deliver {frame : Fin nFrames} {off len : ℕ}
    (h : s.Delivers port frame off len) :
    (sessions port umem).step s (.deliver frame off len) =
      some (s.deliver frame ⟨frame * frameSize + off, len⟩) :=
  if_pos h

theorem step_release (hidle : s.rearming = false)
    (hused : s.source.batchRx = s.source.peekedRx) :
    (sessions port umem).step s .release =
      some { s with source := s.source.release, rearming := true } :=
  if_pos ⟨hidle, hused⟩

theorem step_peek {name n : ℕ} (hbusy : s.rearming = true) (hname : s.buffers name = none)
    (hn : s.source.Peeks n) :
    (sessions port umem).step s (.peek name n) = some (s.peek name n) :=
  if_pos ⟨hbusy, hname, hn⟩

end Steps

theorem kernel_start_take :
    (sessions 26477 fun _ => 0).start.take.kernel = [frameOf 0] := by
  obtain ⟨hprod, hcons, hentries⟩ := filled_spec (Nat.le_refl nFrames)
  have hlt : 0 < (filled nFrames).prod := by rw [hprod]; decide
  have hmem : ((filled nFrames).entries 0).head? = some 0 := by
    rw [hentries, List.head?_map, List.head?_range]
    rfl
  rw [Ring.entries_of_lt hlt, List.head?_cons, Option.some_inj] at hmem
  change [frameOf ((filled nFrames).get (filled nFrames).cons)] = [frameOf 0]
  rw [hcons, hmem]

theorem reachable_receivedThree :
    (sessions 26477 fun _ => 0).Reachable receivedThree := by
  obtain ⟨hprod, hcons, -⟩ := filled_spec (Nat.le_refl nFrames)
  have hlt : (filled nFrames).cons < (filled nFrames).prod := by
    rw [hprod, hcons]
    decide
  have hkernel : frameOf 0 ∈ (sessions 26477 fun _ => 0).start.take.kernel := by
    rw [kernel_start_take]
    exact List.mem_singleton.mpr rfl
  exact (TransitionSystem.Reachable.start.step (step_take hlt)).step
    (step_receive hkernel _)

theorem reachable_servedThree :
    (sessions 26477 fun _ => 0).Reachable servedThree := by
  have hkernel : frameOf 0 ∈ receivedThree.kernel := by
    change frameOf 0 ∈ (sessions 26477 fun _ => 0).start.take.kernel
    rw [kernel_start_take]
    exact List.mem_singleton.mpr rfl
  have hdelivers : receivedThree.Delivers 26477 (frameOf 0) 256 60 :=
    ⟨hkernel, by decide, by decide, by decide +kernel⟩
  have hdelivered : (sessions 26477 fun _ => 0).Reachable deliveredThree :=
    reachable_receivedThree.step (step_deliver hdelivers)
  exact (hdelivered.step (step_release rfl rfl)).step (step_peek rfl rfl (by decide))

/-- The caller destroys the `Buffer` again. -/
theorem frames_conserved_servedThree :
    (sessions 26477 fun _ => 0).Reachable servedThree ∧
    servedThree.served = [[1, 2, 3]] ∧ (∀ frame, ∃! p, frame ∈ servedThree.loc p) ∧
    ∃ s, servedThree.step 26477 (.destroy 0) = some s ∧
      servedThree.loc (.buffer 0) = [frameOf 0] ∧ s.buffers 0 = none ∧
      s.loc .fill = servedThree.loc .fill ++ [frameOf 0] := by
  have hconserved := frames_conserved 26477 _ reachable_servedThree
  let buffer : Held := ⟨⟨256, 60⟩, 0⟩
  have hheld : servedThree.buffers 0 = some (some buffer) := by decide +kernel
  have hframe : frameOf buffer.desc.addr = frameOf 0 := by decide
  have hloc : servedThree.loc (.buffer 0) = [frameOf 0] := by
    rw [Session.loc, hheld, ← hframe]
    rfl
  have hstep : servedThree.step 26477 (.destroy 0) =
      some (servedThree.destroy 0 (some buffer)) := by
    rw [Session.step, hheld]
    rfl
  obtain ⟨hbuffers, hfill, -⟩ := hconserved.2.2.2.2.2.2.2 _ _ hstep
  rw [hloc] at hfill
  refine ⟨reachable_servedThree, by decide +kernel, hconserved.1, _, hstep, hloc, ?_, hfill⟩
  rw [hbuffers, Function.update_self]

end AfXdpSource

end Fastbook
