import Fastbook.Feed.TcpSource

/-!
# The stream of the TCP source

Each object of the pool is in one place in every state that the source and its
environment reach, and at most one `recv` is under way.  So no `Buffer` is written
to while it is kept, and the bytes come out in the order in which the peer has sent
them.  A `Buffer` that is destroyed gives its object back to the pool.
-/

namespace Fastbook

open Support

namespace TcpSource

/-! ## Places -/

inductive Place where
  | free
  | sq
  | inflight
  | cq
  | buffer (name : ℕ)
  deriving DecidableEq

/-- What a completion has to say. -/
def content (s : TcpSource) (c : Cqe) : List UInt8 :=
  (s.pool.storage c.data).buf.take c.res.toNat

/-- An object of the pool is written to. -/
def write (s : TcpSource) (data : Ptr) (d : IoUringData) : TcpSource :=
  { s with pool := { s.pool with storage := Function.update s.pool.storage data d } }

/-- All that `rearm_recv_` can do while there is room in the queue. -/
theorem rearmRecv_cases {s : TcpSource} (submits : Bool)
    (hsq : s.sq.length < ringMaxEntries) :
    s.pool.free = [] ∧ s.rearmRecv submits = (s, false) ∨
    ∃ data free, s.pool.free = data :: free ∧
      (s.rearmRecv submits =
          ({ s with pool.free := free, sq := s.sq ++ [data], recvArmed := true }, true) ∨
        s.rearmRecv submits =
          (fail (s.write data (s.pool.storage data).reset) .error, false)) := by
  have hroom : ¬ ringMaxEntries ≤ s.sq.length := Nat.not_le_of_lt hsq
  unfold rearmRecv McastUDPSource.ObjectPool.get
  cases hfree : s.pool.free with
  | nil => exact Or.inl ⟨rfl, rfl⟩
  | cons data free =>
      refine Or.inr ⟨data, free, rfl, ?_⟩
      simp only [if_neg hroom]
      cases submits with
      | true => exact Or.inl rfl
      | false =>
          refine Or.inr ?_
          simp [McastUDPSource.ObjectPool.restore, fail, write, hfree]

theorem rearmRecv_cq (s : TcpSource) (submits : Bool) : (s.rearmRecv submits).1.cq = s.cq := by
  unfold rearmRecv
  split
  · rfl
  · split_ifs <;> rfl

namespace Session

def loc (s : Session) : Place → List Ptr
  | .free => s.source.pool.free
  | .sq => s.source.sq
  | .inflight => s.source.inflight
  | .cq => s.source.cq.map Cqe.data
  | .buffer name => (s.buffers name).join.toList.map Held.data

/-- The invariant of the runs. -/
structure Inv (s : Session) : Prop where
  placed : Partition s.loc
  armed : s.source.sq.length + s.source.inflight.length + s.source.cq.length =
    if s.source.recvArmed then 1 else 0
  named : ∀ name, s.peeking = some name → s.buffers name = none
  filled : ∀ c ∈ s.source.cq,
    (s.source.content c).length = c.res.toNat ∧ c.res ≤ ioUringBufMaxSz
  stream : s.sent = s.served.flatten ++ s.source.cq.flatMap s.source.content ++ s.arrived
  cut : ∀ bytes ∈ s.served, bytes ≠ [] ∧ bytes.length ≤ ioUringBufMaxSz
  held : ∀ name b, s.buffers name = some (some b) →
    s.served[b.number]? = some (s.source.pool.storage b.data).bytes
  /-- Only a failed `send` shuts the socket down under a `recv`. -/
  gone : s.source.shut = true ∨ isTerminal s.source.connStatus = true →
    s.broken = true ∨ isTerminal s.source.connStatus = true ∧ s.source.recvArmed = false
  ended : ∀ c ∈ s.source.cq, c.res = 0 →
    s.broken = true ∨ s.closed = true ∧ s.arrived = []
  eof : s.source.connStatus = .eof → s.broken = true ∨ s.closed = true ∧ s.arrived = []
  failing : s.send = .failing → s.broken = true

/-- What `next` makes of the completions that it finds: bytes become a new `Buffer`,
and otherwise the object goes back to the pool. -/
def Handed (s s' : Session) (name : ℕ) : List Cqe → Prop
  | [] => s'.loc = s.loc ∧ s'.buffers = s.buffers ∧ s'.served = s.served
  | c :: cq =>
    s'.source.cq = cq ∧
    if 0 < c.res then
      s'.buffers = Function.update s.buffers name (some (some ⟨c.data, s.served.length⟩)) ∧
        s'.served = s.served ++ [s.source.content c]
    else
      s'.loc .free = c.data :: s.loc .free ∧ s'.buffers = s.buffers ∧ s'.served = s.served

/-- What a step does for the caller.  The object of a `Buffer` that is destroyed goes
back to the pool, and moving exchanges what two of them hold. -/
def Effect (s s' : Session) : Action → Prop
  | .next _ _ =>
    s'.source.cq = s.source.cq ∧ s'.buffers = s.buffers ∧ s'.served = s.served
  | .peek _ => ∃ name, s.peeking = some name ∧ s.Handed s' name s.source.cq
  | .destroy name =>
    s'.buffers = Function.update s.buffers name none ∧
    s'.loc .free = s.loc (.buffer name) ++ s.loc .free ∧
    (∀ p, p ≠ .free → p ≠ .buffer name → s'.loc p = s.loc p) ∧ s'.served = s.served
  | .construct name other | .assign name other =>
    s'.source = s.source ∧
    (∀ n, (s'.buffers n).join = (s.buffers (Equiv.swap name other n)).join) ∧
    s'.served = s.served
  | .send _ | .take | .complete _ _ | .arrive _ | .close =>
    s'.buffers = s.buffers ∧ s'.served = s.served

variable {s s' : Session} {name : ℕ} {submits : Bool}

theorem mem_loc_buffer {b : Held} (h : s.buffers name = some (some b)) :
    b.data ∈ s.loc (.buffer name) := by
  simp [loc, h]

/-- No `Buffer` has an object that is somewhere else. -/
theorem Inv.ne_held (h : s.Inv) {b : Held} (hb : s.buffers name = some (some b)) {p : Place}
    {data : Ptr} (hdata : data ∈ s.loc p) (hp : p ≠ .buffer name) : b.data ≠ data := by
  rintro rfl
  exact hp (h.placed.eq_of_mem hdata (mem_loc_buffer hb))

/-- Nothing is under way. -/
theorem Inv.unarmed (h : s.Inv) (hnot : s.source.recvArmed = false) :
    s.source.sq = [] ∧ s.source.inflight = [] ∧ s.source.cq = [] := by
  have harmed := h.armed
  rw [hnot] at harmed
  simp only [Bool.false_eq_true, if_false] at harmed
  exact ⟨List.length_eq_zero_iff.mp (by omega), List.length_eq_zero_iff.mp (by omega),
    List.length_eq_zero_iff.mp (by omega)⟩

/-- An object that no `Buffer` has may be written to, if the completions keep what
they have. -/
theorem Inv.write (h : s.Inv) {data : Ptr} {d : IoUringData}
    (hheld : ∀ name b, s.buffers name = some (some b) → b.data ≠ data)
    (hcq : ∀ c ∈ s.source.cq, (s.source.write data d).content c = s.source.content c) :
    Inv { s with source := s.source.write data d } := by
  have hcontent : s.source.cq.flatMap (s.source.write data d).content =
      s.source.cq.flatMap s.source.content := List.flatMap_congr hcq
  refine { h with filled := ?_, stream := ?_, held := ?_ }
  · intro c hc
    have hfilled := h.filled c hc
    rw [← hcq c hc] at hfilled
    exact hfilled
  · change s.sent = s.served.flatten ++ s.source.cq.flatMap (s.source.write data d).content ++ _
    rw [hcontent]
    exact h.stream
  · intro name b hb
    change _ = some (Function.update s.source.pool.storage data d b.data).bytes
    rw [Function.update_of_ne (hheld name b hb)]
    exact h.held name b hb

theorem content_write_reset (source : TcpSource) (data : Ptr) (c : Cqe) :
    (source.write data (source.pool.storage data).reset).content c = source.content c := by
  unfold content TcpSource.write
  by_cases hc : c.data = data
  · subst hc
    simp [IoUringData.reset]
  · simp [Function.update_of_ne hc]

/-- `fail_`, when no `recv` is under way. -/
theorem Inv.fail (h : s.Inv) (hnot : s.source.recvArmed = false) {err : TransportStatus}
    (herr : isTerminal err = true)
    (heof : err = .eof → s.broken = true ∨ s.closed = true ∧ s.arrived = []) :
    Inv { s with source := s.source.fail err } :=
  { h with gone := fun _ => Or.inr ⟨herr, hnot⟩, eof := heof }

theorem Inv.rearm (h : s.Inv) (submits : Bool) (hnot : s.source.recvArmed = false)
    (hlive : isTerminal s.source.connStatus = true → s.broken = true) :
    Inv { s with source := (s.source.rearmRecv submits).1 } := by
  obtain ⟨hsq, hinflight, hcq⟩ := h.unarmed hnot
  rcases rearmRecv_cases submits (s := s.source) (by rw [hsq]; decide) with
    ⟨-, heq⟩ | ⟨data, free, hfree, heq | heq⟩
  · rw [heq]
    exact h
  · rw [heq]
    have hplaced : Partition (Exclusive.move s.loc .free .sq free [data]) :=
      h.placed.moved (by simp) (l := [data]) (by rw [loc, hfree]; rfl) (by rw [loc, hsq]; rfl)
    refine { h with placed := ?_, armed := ?_, gone := ?_ }
    · convert hplaced using 1
      funext p
      cases p <;> simp [loc, Exclusive.move, hsq]
    · simp [hsq, hinflight, hcq]
    · intro hover
      rcases h.gone hover with hbroken | ⟨hterminal, -⟩
      · exact Or.inl hbroken
      · exact Or.inl (hlive hterminal)
  · rw [heq]
    let source := s.source.write data (s.source.pool.storage data).reset
    have hwrite : Inv { s with source } := by
      refine h.write (fun name b hb => ?_) fun c _ => content_write_reset s.source data c
      exact h.ne_held hb (p := .free) (by simp [loc, hfree]) (by simp)
    exact hwrite.fail hnot rfl (fun heof => by cases heof)

/-! ## Completions -/

/-- There is one completion at most, and then nothing else is under way. -/
theorem Inv.completed (h : s.Inv) {c : Cqe} {cq : List Cqe} (hcq : s.source.cq = c :: cq) :
    s.source.sq = [] ∧ s.source.inflight = [] ∧ cq = [] := by
  have harmed := h.armed
  rw [hcq, List.length_cons] at harmed
  have hle : (if s.source.recvArmed then 1 else 0) ≤ 1 := by split <;> omega
  exact ⟨List.length_eq_zero_iff.mp (by omega), List.length_eq_zero_iff.mp (by omega),
    List.length_eq_zero_iff.mp (by omega)⟩

/-- A completion without bytes: its object goes back to the pool. -/
theorem Inv.reaped (h : s.Inv) {c : Cqe} {cq : List Cqe} (hcq : s.source.cq = c :: cq)
    (hres : c.res ≤ 0) :
    Inv { s with source := release { s.source with cq, recvArmed := false } c.data
                 peeking := none } := by
  obtain ⟨hsq, hinflight, rfl⟩ := h.completed hcq
  have hempty : s.source.content c = [] := by
    rw [content, Int.toNat_of_nonpos hres, List.take_zero]
  have hplaced : Partition (Exclusive.move s.loc .cq .free [] (c.data :: s.source.pool.free)) :=
    h.placed.moved (by simp) (l := [c.data]) (by rw [loc, hcq]; rfl) (.refl _)
  refine { h with placed := ?_, armed := ?_, named := ?_, filled := ?_, stream := ?_,
                  held := ?_, gone := ?_, ended := ?_ }
  · convert hplaced using 1
    funext p
    cases p <;> simp [loc, Exclusive.move, release, McastUDPSource.ObjectPool.restore]
  · simp [release, hsq, hinflight]
  · intro name hname
    cases hname
  · exact List.forall_mem_nil _
  · have hstream := h.stream
    rw [hcq, List.flatMap_cons, hempty] at hstream
    exact hstream
  · intro name b hb
    have hne : b.data ≠ c.data := h.ne_held hb (p := .cq) (by simp [loc, hcq]) (by simp)
    have hheld := h.held name b hb
    simpa [release, McastUDPSource.ObjectPool.restore, Function.update_of_ne hne] using hheld
  · intro hover
    exact (h.gone hover).imp_right fun hterminal => ⟨hterminal.1, rfl⟩
  · exact List.forall_mem_nil _

/-- A completion with bytes: the caller gets a `Buffer` that shows them. -/
theorem Inv.served (h : s.Inv) {c : Cqe} {cq : List Cqe} (hcq : s.source.cq = c :: cq)
    (hres : 0 < c.res) (hname : s.buffers name = none) :
    Inv { s with
      source := TcpSource.write { s.source with cq, recvArmed := false } c.data
        { s.source.pool.storage c.data with sz := c.res.toNat }
      peeking := none
      buffers := Function.update s.buffers name (some (some ⟨c.data, s.served.length⟩))
      served := s.served ++ [s.source.content c] } := by
  obtain ⟨hsq, hinflight, rfl⟩ := h.completed hcq
  obtain ⟨hlength, hmax⟩ := h.filled c (by simp [hcq])
  have hplaced : Partition (Exclusive.move s.loc .cq (.buffer name) [] [c.data]) :=
    h.placed.moved (by simp) (l := [c.data]) (by rw [loc, hcq]; rfl) (by simp [loc, hname])
  refine { h with placed := ?_, armed := ?_, named := ?_, filled := ?_, stream := ?_,
                  cut := ?_, held := ?_, gone := ?_, ended := ?_ }
  · convert hplaced using 1
    funext p
    cases p with
    | buffer n =>
        by_cases hn : n = name
        · subst hn
          simp [loc, Exclusive.move]
        · simp [loc, Exclusive.move, hn]
    | _ => simp [loc, Exclusive.move, TcpSource.write]
  · simp [TcpSource.write, hsq, hinflight]
  · intro n hn
    cases hn
  · exact List.forall_mem_nil _
  · have hstream := h.stream
    rw [hcq, List.flatMap_cons, List.flatMap_nil, List.append_nil] at hstream
    simpa [TcpSource.write] using hstream
  · refine List.forall_mem_append.mpr ⟨h.cut, List.forall_mem_singleton.mpr ⟨?_, ?_⟩⟩
    · exact List.ne_nil_of_length_pos (by omega)
    · omega
  · intro n b hb
    by_cases hn : n = name
    · subst hn
      simp only [Function.update_self, Option.some.injEq] at hb
      subst hb
      simp [TcpSource.write, IoUringData.bytes, content]
    · simp only [Function.update_of_ne hn] at hb
      have hne : b.data ≠ c.data := h.ne_held hb (p := .cq) (by simp [loc, hcq]) (by simp)
      have hheld := h.held n b hb
      have hlt := (List.getElem?_eq_some_iff.mp hheld).1
      simpa [TcpSource.write, Function.update_of_ne hne, List.getElem?_append_left hlt]
        using hheld
  · intro hover
    exact (h.gone hover).imp_right fun hterminal => ⟨hterminal.1, rfl⟩
  · exact List.forall_mem_nil _

/-! ## `next` -/

theorem Inv.next (h : s.Inv) (hname : s.buffers name = none) : (s.next name submits).Inv := by
  have hpeeking : ∀ n, some name = some n → s.buffers n = none := by
    rintro n ⟨⟩
    exact hname
  unfold Session.next beginNext
  by_cases hterminal : isTerminal s.source.connStatus = true
  · rw [if_pos hterminal]
    exact h
  rw [if_neg hterminal]
  cases hnot : s.source.recvArmed with
  | true => exact { h with named := hpeeking }
  | false =>
      have hrearm := h.rearm submits hnot fun hbad => absurd hbad hterminal
      generalize s.source.rearmRecv submits = r at hrearm ⊢
      obtain ⟨source, armed⟩ := r
      cases armed with
      | true => exact { hrearm with named := hpeeking }
      | false => exact hrearm

/-- While a completion waits, only a failed `send` can have ended the connection. -/
theorem Inv.broken_of_cq (h : s.Inv) {c : Cqe} {cq : List Cqe} (hcq : s.source.cq = c :: cq)
    (hterminal : isTerminal s.source.connStatus = true) : s.broken = true := by
  refine (h.gone (Or.inr hterminal)).resolve_right fun hnot => ?_
  rw [(h.unarmed hnot.2).2.2] at hcq
  cases hcq

/-- The object of the new `recv` is not the one that is handed out. -/
theorem Inv.peek_served (h : s.Inv) {c : Cqe} {cq : List Cqe} (submits : Bool)
    (hcq : s.source.cq = c :: cq) (hres : 0 < c.res) (hname : s.buffers name = none)
    {source : TcpSource}
    (hsource : source = (rearmRecv (TcpSource.write { s.source with cq, recvArmed := false }
      c.data { s.source.pool.storage c.data with sz := c.res.toNat }) submits).1) :
    Inv { s with
        source
        peeking := none
        buffers := Function.update s.buffers name (some (some ⟨c.data, s.served.length⟩))
        served := s.served ++ [(source.pool.storage c.data).bytes] } ∧
      (source.pool.storage c.data).bytes = s.source.content c ∧ source.cq = cq := by
  have hrearm := (h.served hcq hres hname).rearm submits rfl
    fun hterminal => h.broken_of_cq hcq hterminal
  rw [← hsource] at hrearm
  have hbytes := hrearm.held name ⟨c.data, s.served.length⟩ (Function.update_self _ _ _)
  simp only [List.getElem?_concat_length, Option.some.injEq] at hbytes
  refine ⟨?_, hbytes.symm, ?_⟩
  · rw [← hbytes]
    exact hrearm
  · rw [hsource, rearmRecv_cq]
    rfl

theorem Inv.peek (h : s.Inv) (hpeeking : s.peeking = some name) :
    (s.peek name submits).Inv := by
  have hname := h.named name hpeeking
  unfold Session.peek finishNext
  cases hcq : s.source.cq with
  | nil => exact { h with named := fun n hn => by cases hn }
  | cons c cq =>
      obtain ⟨data, res⟩ := c
      dsimp only
      by_cases hneg : res < 0
      · rw [if_pos hneg]
        have hreaped := h.reaped hcq hneg.le
        split_ifs
        · exact hreaped
        · exact hreaped.fail rfl rfl fun heof => by cases heof
      rw [if_neg hneg]
      by_cases hzero : res = 0
      · rw [if_pos hzero]
        have hended := h.ended ⟨data, res⟩ (by simp [hcq]) hzero
        exact (h.reaped hcq hzero.le).fail rfl rfl fun _ => hended
      · rw [if_neg hzero]
        exact (h.peek_served submits hcq (by dsimp only; omega) hname rfl).1

theorem Inv.handed_peek (h : s.Inv) (hpeeking : s.peeking = some name) :
    s.Handed (s.peek name submits) name s.source.cq := by
  have hname := h.named name hpeeking
  unfold Session.peek finishNext
  cases hcq : s.source.cq with
  | nil => exact ⟨rfl, rfl, rfl⟩
  | cons c cq =>
      obtain ⟨data, res⟩ := c
      dsimp only
      by_cases hneg : res < 0
      · rw [if_pos hneg, Handed, if_neg (not_lt.mpr hneg.le)]
        split_ifs
        · exact ⟨rfl, rfl, rfl, rfl⟩
        · exact ⟨rfl, rfl, rfl, rfl⟩
      rw [if_neg hneg]
      by_cases hzero : res = 0
      · rw [if_pos hzero, Handed, if_neg (not_lt.mpr hzero.le)]
        exact ⟨rfl, rfl, rfl, rfl⟩
      · have hres : 0 < res := by omega
        obtain ⟨-, hbytes, hrest⟩ := h.peek_served submits hcq hres hname rfl
        rw [if_neg hzero, Handed, if_pos hres, ← hbytes]
        exact ⟨hrest, rfl, rfl⟩

/-! ## The objects of the caller -/

theorem loc_destroy_none (hname : s.buffers name = some none) :
    (s.destroy name none).loc = s.loc := by
  funext p
  cases p with
  | buffer n =>
      by_cases hn : n = name
      · subst hn
        simp [loc, Session.destroy, hname]
      · simp [loc, Session.destroy, hn]
  | _ => rfl

theorem loc_destroy_some (b : Held) :
    (s.destroy name (some b)).loc =
      Exclusive.move s.loc (.buffer name) .free [] (b.data :: s.source.pool.free) := by
  funext p
  cases p with
  | buffer n =>
      by_cases hn : n = name
      · subst hn
        simp [loc, Session.destroy, Exclusive.move]
      · simp [loc, Session.destroy, Exclusive.move, hn]
  | _ => simp [loc, Session.destroy, Exclusive.move, release, McastUDPSource.ObjectPool.restore]

theorem Inv.destroyed (h : s.Inv) {held : Option Held} (hname : s.buffers name = some held)
    (hpeeking : s.peeking = none) : (s.destroy name held).Inv := by
  have hnamed : ∀ n, s.peeking = some n → Function.update s.buffers name none n = none := by
    intro n hn
    rw [hpeeking] at hn
    cases hn
  have hbuffers : ∀ {n b}, Function.update s.buffers name none n = some (some b) →
      n ≠ name ∧ s.buffers n = some (some b) := by
    intro n b hb
    by_cases hn : n = name
    · subst hn
      simp at hb
    · rw [Function.update_of_ne hn] at hb
      exact ⟨hn, hb⟩
  cases held with
  | none =>
      refine { h with placed := ?_, named := hnamed,
                      held := fun n b hb => h.held n b (hbuffers hb).2 }
      rw [loc_destroy_none hname]
      exact h.placed
  | some b =>
      have hcontent : ∀ c, (s.source.release b.data).content c = s.source.content c :=
        content_write_reset s.source b.data
      refine { h with placed := ?_, named := hnamed, filled := ?_, stream := ?_, held := ?_ }
      · rw [loc_destroy_some]
        exact h.placed.moved (by simp) (l := [b.data]) (by simp [loc, hname]) (.refl _)
      · intro c hc
        simp only [Session.destroy, hcontent]
        exact h.filled c hc
      · have hstream := h.stream
        rw [← funext hcontent] at hstream
        exact hstream
      · intro n b' hb'
        obtain ⟨hn, hb'⟩ := hbuffers hb'
        have hne : b'.data ≠ b.data := by
          refine h.ne_held hb' (mem_loc_buffer hname) fun hp => hn ?_
          cases hp
          rfl
        have hheld := h.held n b' hb'
        simpa [Session.destroy, release, McastUDPSource.ObjectPool.restore,
          Function.update_of_ne hne] using hheld

theorem effect_destroy {held : Option Held} (hname : s.buffers name = some held) :
    s.Effect (s.destroy name held) (.destroy name) := by
  have hheld : s.loc (.buffer name) = held.toList.map Held.data := by
    rw [loc, hname]
    rfl
  rw [Effect, hheld]
  cases held with
  | none =>
      rw [loc_destroy_none hname]
      exact ⟨rfl, rfl, fun _ _ _ => rfl, rfl⟩
  | some b =>
      rw [loc_destroy_some]
      refine ⟨rfl, Function.update_self _ _ _, ?_, rfl⟩
      intro p hfree hbuffer
      exact Exclusive.move_of_ne hbuffer hfree

theorem exchange_of_construct {other : ℕ} (hstep : s.step (.construct name other) = some s') :
    s.peeking = none ∧ ∃ buffers, s' = { s with buffers } ∧
      ∀ n, (buffers n).join = (s.buffers (Equiv.swap name other n)).join := by
  rw [Session.step] at hstep
  split at hstep
  · next held hpeeking hname hother =>
    cases hstep
    exact ⟨hpeeking, _, rfl, join_construct hname hother⟩
  · cases hstep

theorem exchange_of_assign {rhs : ℕ} (hstep : s.step (.assign name rhs) = some s') :
    s.peeking = none ∧ ∃ buffers, s' = { s with buffers } ∧
      ∀ n, (buffers n).join = (s.buffers (Equiv.swap name rhs n)).join := by
  rw [Session.step] at hstep
  split at hstep
  · next held held' hpeeking hname hrhs =>
    cases hstep
    exact ⟨hpeeking, _, rfl, join_assign hname hrhs⟩
  · cases hstep

/-- Moving between two objects exchanges what they hold. -/
theorem Inv.exchanged (h : s.Inv) {other : ℕ} (hpeeking : s.peeking = none)
    {buffers : ℕ → Option (Option Held)}
    (hjoin : ∀ n, (buffers n).join = (s.buffers (Equiv.swap name other n)).join) :
    Inv { s with buffers } := by
  refine { h with placed := ?_, named := ?_, held := ?_ }
  · refine h.placed.exchanged Place.buffer name other
      (fun _ _ heq => by cases heq; rfl) (fun p hp => ?_) fun n => ?_
    · cases p with
      | buffer n => exact absurd rfl (hp n)
      | _ => rfl
    · simp only [loc, hjoin]
  · intro n hn
    rw [hpeeking] at hn
    cases hn
  · intro n b hb
    have hn := hjoin n
    change buffers n = some (some b) at hb
    rw [hb] at hn
    exact h.held _ b (Option.join_eq_some_iff.mp hn.symm)

/-! ## The environment -/

theorem Inv.taken (h : s.Inv) {data : Ptr} {sq : List Ptr} (hsq : s.source.sq = data :: sq) :
    Inv { s with source.sq := sq, source.inflight := s.source.inflight ++ [data] } := by
  have hplaced : Partition
      (Exclusive.move s.loc .sq .inflight sq (s.source.inflight ++ [data])) :=
    h.placed.moved (by simp) (l := [data]) (by rw [loc, hsq]; rfl) List.perm_append_comm
  refine { h with placed := ?_, armed := ?_ }
  · convert hplaced using 1
    funext p
    cases p <;> simp [loc, Exclusive.move]
  · have harmed := h.armed
    rw [hsq, List.length_cons] at harmed
    simp only [List.length_append, List.length_singleton]
    omega

theorem Inv.completes (h : s.Inv) {data : Ptr} {res : ℤ} (hcompletes : s.Completes data res) :
    (s.complete data res).Inv := by
  obtain ⟨hmem, hres⟩ := hcompletes
  -- this is the only request
  have hlength := List.length_pos_of_mem hmem
  have harmed := h.armed
  have harmed' : s.source.recvArmed = true := by
    by_contra hnot
    rw [(h.unarmed (Bool.eq_false_iff.mpr hnot)).2.1] at hmem
    cases hmem
  rw [harmed', if_pos rfl] at harmed
  have hcq : s.source.cq = [] := List.length_eq_zero_iff.mp (by omega)
  have hle : res.toNat ≤ s.arrived.length := by
    rcases hres with hneg | ⟨rfl, -⟩ | ⟨-, -, hle⟩ <;> omega
  have hcontent : (s.complete data res).source.content ⟨data, res⟩ =
      s.arrived.take res.toNat := by
    simp [content, Session.complete, hle]
  have herase : s.source.inflight.Perm ([data] ++ s.source.inflight.erase data) :=
    List.perm_cons_erase hmem
  have hplaced : Partition
      (Exclusive.move s.loc .inflight .cq (s.source.inflight.erase data) [data]) :=
    h.placed.moved (by simp) (l := [data]) herase (by simp [loc, hcq])
  refine { h with placed := ?_, armed := ?_, filled := ?_, stream := ?_, held := ?_,
                  ended := ?_, eof := ?_ }
  · convert hplaced using 1
    funext p
    cases p <;> simp [loc, Exclusive.move, Session.complete, hcq]
  · simp only [Session.complete, List.length_append, List.length_singleton, harmed', if_true,
      List.length_erase_of_mem hmem]
    omega
  · intro c hc
    simp only [Session.complete, hcq, List.nil_append, List.mem_singleton] at hc
    subst hc
    rw [hcontent, List.length_take]
    simp only [ioUringBufMaxSz] at hres ⊢
    omega
  · have hstream := h.stream
    rw [hcq, List.flatMap_nil, List.append_nil] at hstream
    have hcq' : (s.complete data res).source.cq = [⟨data, res⟩] := by
      simp [Session.complete, hcq]
    rw [hcq', List.flatMap_singleton, hcontent, List.append_assoc]
    change s.sent = s.served.flatten ++ (_ ++ s.arrived.drop res.toNat)
    rw [List.take_append_drop]
    exact hstream
  · intro n b hb
    have hne : b.data ≠ data := h.ne_held hb (p := .inflight) hmem (by simp)
    have hheld := h.held n b hb
    simpa [Session.complete, Function.update_of_ne hne] using hheld
  · intro c hc hzero
    simp only [Session.complete, hcq, List.nil_append, List.mem_singleton] at hc
    subst hc
    change res = 0 at hzero
    subst hzero
    rcases hres with hneg | ⟨-, hshut | hclosed⟩ | ⟨hpos, -⟩
    · omega
    · refine Or.inl ((h.gone (Or.inl hshut)).resolve_right fun hnot => ?_)
      rw [harmed'] at hnot
      cases hnot.2
    · exact Or.inr ⟨hclosed.1, by simp [Session.complete, hclosed.2]⟩
    · omega
  · intro heof
    exact (h.eof heof).imp_right fun hend => ⟨hend.1, by simp [Session.complete, hend.2]⟩

theorem Inv.arrives (h : s.Inv) (hopen : s.closed = false) (bytes : List UInt8) :
    Inv { s with sent := s.sent ++ bytes, arrived := s.arrived ++ bytes } := by
  have hnot : ∀ {P : Prop}, s.broken = true ∨ s.closed = true ∧ P → s.broken = true := by
    intro P hend
    refine hend.resolve_right fun hclosed => ?_
    rw [hopen] at hclosed
    cases hclosed.1
  refine { h with stream := ?_, ended := ?_, eof := ?_ }
  · have hstream := h.stream
    simp only [hstream, List.append_assoc]
  · exact fun c hc hzero => Or.inl (hnot (h.ended c hc hzero))
  · exact fun heof => Or.inl (hnot (h.eof heof))

theorem Inv.closes (h : s.Inv) : Inv { s with closed := true } :=
  { h with
    ended := fun c hc hzero => (h.ended c hc hzero).imp_right fun hend => ⟨rfl, hend.2⟩
    eof := fun heof => (h.eof heof).imp_right fun hend => ⟨rfl, hend.2⟩ }

theorem Inv.sends (h : s.Inv) (all : Bool) : (s.sendStep all).Inv := by
  unfold sendStep
  cases hsend : s.send with
  | idle =>
      dsimp only
      split
      · exact h
      · exact { h with failing := fun hbad => by cases hbad }
  | sending =>
      dsimp only
      split
      · exact { h with failing := fun hbad => by cases hbad }
      · exact { h with
          gone := fun _ => Or.inl rfl
          ended := fun _ _ _ => Or.inl rfl
          eof := fun _ => Or.inl rfl
          failing := fun _ => rfl }
  | failing =>
      have hbroken := h.failing hsend
      exact { h with
        gone := fun _ => Or.inl hbroken
        ended := fun _ _ _ => Or.inl hbroken
        eof := fun _ => Or.inl hbroken
        failing := fun _ => hbroken }

/-! ## The runs -/

theorem inv_start (objects : Ptr → IoUringData) (submits : Bool) :
    (sessions objects submits).start.Inv := by
  have hloc : ∀ p data, data ∈ loc { source := { pool := .new objects } } p ↔ p = .free := by
    intro p data
    cases p <;> simp [loc, McastUDPSource.ObjectPool.new]
  have hfresh : Inv { source := { pool := .new objects } } := by
    refine ⟨⟨⟨?_, ?_⟩, fun data => ⟨.free, (hloc .free data).mpr rfl⟩⟩, rfl, ?_,
      List.forall_mem_nil _, rfl, List.forall_mem_nil _, ?_, ?_, List.forall_mem_nil _, ?_, ?_⟩
    · intro p
      cases p with
      | free => exact List.nodup_finRange _
      | _ => exact List.nodup_nil
    · intro p q data hp hq
      rw [(hloc p data).mp hp, (hloc q data).mp hq]
    all_goals simp [isTerminal]
  exact hfresh.rearm submits rfl fun hterminal => by cases hterminal

theorem Inv.step (h : s.Inv) {a : Action} (hstep : s.step a = some s') : s'.Inv := by
  cases a with
  | next name submits =>
      rw [Session.step] at hstep
      split at hstep
      · next hname =>
        cases hstep
        exact h.next hname
      · cases hstep
  | peek submits =>
      rw [Session.step] at hstep
      split at hstep
      · cases hstep
      · next name hpeeking =>
        cases hstep
        exact h.peek hpeeking
  | destroy name =>
      rw [Session.step] at hstep
      split at hstep
      · next held hpeeking hname =>
        cases hstep
        exact h.destroyed hname hpeeking
      · cases hstep
  | construct name other =>
      obtain ⟨hpeeking, buffers, rfl, hjoin⟩ := exchange_of_construct hstep
      exact h.exchanged hpeeking hjoin
  | assign name rhs =>
      obtain ⟨hpeeking, buffers, rfl, hjoin⟩ := exchange_of_assign hstep
      exact h.exchanged hpeeking hjoin
  | send all =>
      cases hstep
      exact h.sends all
  | take =>
      rw [Session.step] at hstep
      split at hstep
      · cases hstep
      · next data sq hsq =>
        cases hstep
        exact h.taken hsq
  | complete data res =>
      rw [Session.step] at hstep
      split_ifs at hstep with hcompletes
      cases hstep
      exact h.completes hcompletes
  | arrive bytes =>
      rw [Session.step] at hstep
      split_ifs at hstep with hclosed
      cases hstep
      exact h.arrives (Bool.eq_false_iff.mpr hclosed) bytes
  | close =>
      cases hstep
      exact h.closes

theorem next_buffers (s : Session) (name : ℕ) (submits : Bool) :
    (s.next name submits).source.cq = s.source.cq ∧
      (s.next name submits).buffers = s.buffers ∧ (s.next name submits).served = s.served := by
  have hcq : (s.source.beginNext submits).1.cq = s.source.cq := by
    unfold beginNext
    split_ifs with hterminal harmed
    · rfl
    · rfl
    · rw [← rearmRecv_cq s.source submits]
      split <;> next heq => rw [heq]
  unfold Session.next
  split <;> next heq => exact ⟨by rw [← hcq, heq], rfl, rfl⟩

theorem sendStep_buffers (s : Session) (all : Bool) :
    (s.sendStep all).buffers = s.buffers ∧ (s.sendStep all).served = s.served := by
  unfold sendStep
  cases s.send with
  | idle =>
      dsimp only
      split <;> exact ⟨rfl, rfl⟩
  | sending =>
      dsimp only
      split <;> exact ⟨rfl, rfl⟩
  | failing => exact ⟨rfl, rfl⟩

theorem Inv.effect (h : s.Inv) {a : Action} (hstep : s.step a = some s') : s.Effect s' a := by
  cases a with
  | next name submits =>
      rw [Session.step] at hstep
      split at hstep
      · cases hstep
        exact next_buffers s name submits
      · cases hstep
  | peek submits =>
      rw [Session.step] at hstep
      split at hstep
      · cases hstep
      · next name hpeeking =>
        cases hstep
        exact ⟨name, hpeeking, h.handed_peek hpeeking⟩
  | destroy name =>
      rw [Session.step] at hstep
      split at hstep
      · next held hpeeking hname =>
        cases hstep
        exact effect_destroy hname
      · cases hstep
  | construct name other =>
      obtain ⟨-, buffers, rfl, hjoin⟩ := exchange_of_construct hstep
      exact ⟨rfl, hjoin, rfl⟩
  | assign name rhs =>
      obtain ⟨-, buffers, rfl, hjoin⟩ := exchange_of_assign hstep
      exact ⟨rfl, hjoin, rfl⟩
  | send all =>
      cases hstep
      exact sendStep_buffers s all
  | take =>
      rw [Session.step] at hstep
      split at hstep
      · cases hstep
      · cases hstep
        exact ⟨rfl, rfl⟩
  | complete | arrive =>
      rw [Session.step] at hstep
      split_ifs at hstep
      cases hstep
      exact ⟨rfl, rfl⟩
  | close =>
      cases hstep
      exact ⟨rfl, rfl⟩

theorem inv_of_reachable {objects : Ptr → IoUringData}
    (h : (sessions objects submits).Reachable s) : s.Inv :=
  h.invariant (inv_start objects submits) fun _ _ _ hs hstep => hs.step hstep

/-- `next` gives up before it looks at the ring only if the caller has all objects. -/
theorem Inv.all_held (h : s.Inv)
    (hblock : (s.source.beginNext submits).2 = .error .wouldBlock) (data : Ptr) :
    ∃ name b, s.buffers name = some (some b) ∧ b.data = data := by
  unfold beginNext at hblock
  by_cases hterminal : isTerminal s.source.connStatus = true
  · simp only [if_pos hterminal, Except.error.injEq] at hblock
    rw [hblock] at hterminal
    cases hterminal
  rw [if_neg hterminal] at hblock
  cases hnot : s.source.recvArmed with
  | true => simp [hnot] at hblock
  | false =>
      obtain ⟨hsq, hinflight, hcq⟩ := h.unarmed hnot
      have hfree : s.source.pool.free = [] := by
        rcases rearmRecv_cases submits (s := s.source) (by rw [hsq]; decide) with
          ⟨hfree, -⟩ | ⟨_, _, -, heq | heq⟩
        · exact hfree
        · simp [hnot, heq] at hblock
        · simp [hnot, heq, TcpSource.fail] at hblock
      obtain ⟨p, hp⟩ := h.placed.covered data
      cases p with
      | buffer name => exact ⟨name, by simpa [loc, Option.join_eq_some_iff] using hp⟩
      | _ => simp [loc, hfree, hsq, hinflight, hcq] at hp

end Session

/-- In every run each object is in one place, and one `recv` is under way at most.
What the `Buffer` objects have shown is the stream of the peer so far, cut somewhere;
each of them shows its bytes until it is destroyed.  Unless a `send` has failed, `Eof` is
the end of the stream: the framer has then got all its messages.  Every step does its
part: `next` hands out the bytes that have been received, and a `Buffer` that is destroyed
gives its object back to the pool. -/
theorem stream_delivered (objects : Ptr → IoUringData) (submits : Bool) {s : Session}
    (h : (sessions objects submits).Reachable s) :
    (∀ data, ∃! p, data ∈ s.loc p) ∧ (∀ p, (s.loc p).Nodup) ∧
    s.source.sq.length + s.source.inflight.length + s.source.cq.length =
      (if s.source.recvArmed then 1 else 0) ∧
    s.served.flatten <+: s.sent ∧
    (∀ name b, s.buffers name = some (some b) →
      s.served[b.number]? = some (s.source.pool.storage b.data).bytes) ∧
    (∀ submits, (s.source.beginNext submits).2 = .error .wouldBlock →
      ∀ data, ∃ name b, s.buffers name = some (some b) ∧ b.data = data) ∧
    (s.source.connStatus = .eof → s.broken = false →
      s.closed = true ∧ s.served.flatten = s.sent ∧
      ∀ maxPayload, (LengthPrefixFramer.feedAll
          (LengthPrefixFramer.fresh : LengthPrefixFramer true maxPayload) s.served).2.1 =
        ((LengthPrefixFramer.lengthPrefixed maxPayload).decode s.sent).1) ∧
    ∀ a s', s.step a = some s' → s.Effect s' a := by
  have hinv := Session.inv_of_reachable h
  refine ⟨hinv.placed.existsUnique_mem, hinv.placed.nodup, hinv.armed, ?_, hinv.held,
    fun _ => hinv.all_held, fun heof hbroken => ?_, fun a s' hstep => hinv.effect hstep⟩
  · rw [hinv.stream, List.append_assoc]
    exact List.prefix_append _ _
  · have hnot : ¬ s.broken = true := Bool.eq_false_iff.mp hbroken
    obtain ⟨hclosed, harrived⟩ := (hinv.eof heof).resolve_left hnot
    have hterminal : isTerminal s.source.connStatus = true := by rw [heof]; rfl
    have hidle := (hinv.gone (Or.inr hterminal)).resolve_left hnot
    have hstream := hinv.stream
    rw [(hinv.unarmed hidle.2).2.2, harrived, List.flatMap_nil, List.append_nil,
      List.append_nil] at hstream
    refine ⟨hclosed, hstream.symm, fun maxPayload => ?_⟩
    rw [hstream]
    exact FileSource.messages_feedAll fun c hc =>
      lt_of_le_of_lt (hinv.cut c hc).2 (by decide)

/-- Two messages in two pieces, and the end of the stream. -/
def sampleActions : List Action :=
  [.arrive [0, 1, 7, 0], .take, .complete ⟨0, by decide⟩ 3, .next 0 true, .peek true,
    .arrive [2, 8, 9], .close, .take, .complete ⟨1, by decide⟩ 4, .next 1 true, .peek true,
    .take, .complete ⟨2, by decide⟩ 0, .next 2 true, .peek true]

/-- The caller destroys the first `Buffer` in the end. -/
theorem stream_delivered_sample :
    ∃ s, (sessions (fun _ => ⟨[], 0⟩) true).Reachable s ∧ s.source.connStatus = .eof ∧
      s.served = [[0, 1, 7], [0, 2, 8, 9]] ∧
      (LengthPrefixFramer.feedAll
          (LengthPrefixFramer.fresh : LengthPrefixFramer true 4096) s.served).2.1 =
        ((LengthPrefixFramer.lengthPrefixed 4096).decode [0, 1, 7, 0, 2, 8, 9]).1 ∧
      ∃ s', s.step (.destroy 0) = some s' ∧ s.loc (.buffer 0) = [⟨0, by decide⟩] ∧
        s'.buffers 0 = none ∧ s'.loc .free = ⟨0, by decide⟩ :: s.loc .free := by
  obtain ⟨s, hrun, heof, hbroken, hserved, hsent, hpeeking, hheld⟩ :
      ∃ s, (sessions (fun _ => ⟨[], 0⟩) true).run
          (sessions (fun _ => ⟨[], 0⟩) true).start sampleActions = some s ∧
        s.source.connStatus = .eof ∧ s.broken = false ∧
        s.served = [[0, 1, 7], [0, 2, 8, 9]] ∧ s.sent = [0, 1, 7, 0, 2, 8, 9] ∧
        s.peeking = none ∧ s.buffers 0 = some (some ⟨⟨0, by decide⟩, 0⟩) :=
    ⟨_, rfl, rfl, rfl, rfl, rfl, rfl, rfl⟩
  have hreach := TransitionSystem.Reachable.start.run hrun
  obtain ⟨-, -, -, -, -, -, hend, heffect⟩ := stream_delivered _ true hreach
  have hmessages := (hend heof hbroken).2.2 4096
  rw [hsent] at hmessages
  have hloc : s.loc (.buffer 0) = [⟨0, by decide⟩] := by
    rw [Session.loc, hheld]
    rfl
  have hstep : s.step (.destroy 0) = some (s.destroy 0 (some ⟨⟨0, by decide⟩, 0⟩)) := by
    rw [Session.step, hpeeking, hheld]
  obtain ⟨hbuffers, hfree, -⟩ := heffect _ _ hstep
  rw [hloc] at hfree
  refine ⟨s, hreach, heof, hserved, hmessages, _, hstep, hloc, ?_, hfree⟩
  rw [hbuffers, Function.update_self]

end TcpSource

end Fastbook
