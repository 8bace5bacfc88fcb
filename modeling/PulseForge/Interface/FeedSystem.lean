import PulseForge.Analysis.FeedMoves
import PulseForge.Analysis.SnapshotLocate

/-!
# An exchange, a network and a trader

The exchange does any actions, and between them the trader makes any calls. The network hands the
trader datagrams that the exchange has sent, as often and in whatever order it likes, or not at
all; a snapshot connection is one that the exchange accepted, and gives the front of what it was
sent. Order entry is anything.
-/

set_option autoImplicit false

namespace PulseForge.Trader

open Foundation Exchange

/-- **A snapshot connection** to an exchange that has done `actions`: by some moment it was logged
in on once at most, and what is read of it is the front of what was sent on it. -/
def Served (cfg : Config) (clock : Clock) (actions : List Action) (reply : SnapshotReply) : Prop :=
  reply.connected = true → reply.loginSent = true → ∃ done id s,
    done <+: actions ∧ (Exchange.after cfg clock done).session? id = some s ∧
    s.kind = .snapshot ∧ s.logins ≤ 1 ∧
    ∀ t : Trader, Pull.received reply.recvs t.pullStart <+: s.sent

/-- The calls that have nothing to do with the feed. -/
inductive Elsewhere : Trader → Trader → Prop
  | connects {t t' : Trader} (login : List (ArgOrder × RecvAnswer)) :
      t.connectOrderEntry login = some t' → Elsewhere t t'
  | oe {t : Trader} (stamps : List ℕ) (error out : Bool)
      (recvs : Option (List (ArgOrder × RecvAnswer))) :
      Elsewhere t (t.onOeEvent stamps error out recvs)
  | deadline {t : Trader} (ns : ℕ) : Elsewhere t { t with deadlineNs := ns }
  | stops {t : Trader} (b : Bool) : Elsewhere t { t with stop := b }
  | ticks {t : Trader} : Elsewhere t t.tick
  | cancels {t : Trader} : Elsewhere t t.cancelAll
  | sends {t : Trader} (bs : Bytes) : Elsewhere t (t.oeSend bs).1

/-- **The system**: the actions of the exchange so far, and the trader. -/
inductive Joined (cfg : Config) (clock : Clock) : List Action → Trader → Prop
  | start {tcfg : TraderConfig} {tclock : Clock} {kernel : ℕ → Session.Send} {t : Trader}
      {reply : SnapshotReply} (actions : List Action) : Trader.new tcfg tclock kernel = some t →
      Served cfg clock actions reply → Joined cfg clock actions (t.snapshot reply)
  | exchange {actions : List Action} {t : Trader} (a : Action) : Joined cfg clock actions t →
      Joined cfg clock (actions ++ [a]) t
  | packet {actions : List Action} {t : Trader} {pkt : Bytes} {reply : SnapshotReply} :
      Joined cfg clock actions t → pkt ∈ (Exchange.after cfg clock actions).md.sent →
      Served cfg clock actions reply → Joined cfg clock actions (t.handlePacket pkt reply)
  | timer {actions : List Action} {t : Trader} {reply : SnapshotReply} :
      Joined cfg clock actions t → Served cfg clock actions reply →
      Joined cfg clock actions (t.onTimer reply)
  | elsewhere {actions : List Action} {t t' : Trader} : Joined cfg clock actions t →
      Elsewhere t t' → Joined cfg clock actions t'

/-! ## The loop -/

/-- What a batch may bring. -/
def Carried (cfg : Config) (clock : Clock) (actions : List Action) : Ready → Prop
  | .md packets => ∀ p ∈ packets,
      p.1 ∈ (Exchange.after cfg clock actions).md.sent ∧ Served cfg clock actions p.2
  | .timer reply => Served cfg clock actions reply
  | .oe .. | .signal => True

/-- **The process** next to the exchange. -/
inductive Runs (cfg : Config) (clock : Clock) : List Action → Process → Prop
  | start {tcfg : TraderConfig} {tclock : Clock} {kernel : ℕ → Session.Send}
      {reply : SnapshotReply} {login : List (ArgOrder × RecvAnswer)} {p : Process}
      (actions : List Action) : Served cfg clock actions reply →
      Trader.start tcfg tclock kernel reply login = some p → Runs cfg clock actions p
  | exchange {actions : List Action} {p : Process} (a : Action) : Runs cfg clock actions p →
      Runs cfg clock (actions ++ [a]) p
  | batch {actions : List Action} {p : Process} (batch : Batch) : Runs cfg clock actions p →
      (∀ ev ∈ batch.events, Carried cfg clock actions ev) → Runs cfg clock actions (p.step batch)

variable {cfg : Config} {clock : Clock} {actions : List Action} {t : Trader}

/-- One event of a batch is made of calls. -/
theorem Joined.handle (h : Joined cfg clock actions t) {ev : Ready}
    (hev : Carried cfg clock actions ev) : Joined cfg clock actions (t.handle ev) := by
  cases ev with
  | md packets =>
    unfold Trader.handle
    dsimp only
    unfold Carried at hev
    induction packets generalizing t with
    | nil => exact h
    | cons p packets ih =>
      obtain ⟨hpkt, hreply⟩ := hev p List.mem_cons_self
      exact ih (h.packet hpkt hreply) fun q hq => hev q (List.mem_cons_of_mem _ hq)
  | oe stamps error out recvs => exact h.elsewhere (.oe stamps error out recvs)
  | timer reply => exact h.timer hev
  | signal => exact h.elsewhere (.stops true)

/-- A batch. -/
theorem Joined.pump (h : Joined cfg clock actions t) {events : List Ready}
    (hevents : ∀ ev ∈ events, Carried cfg clock actions ev) :
    Joined cfg clock actions (events.foldl Trader.handle t) := by
  induction events generalizing t with
  | nil => exact h
  | cons ev events ih =>
    exact ih (h.handle (hevents ev List.mem_cons_self))
      fun e he => hevents e (List.mem_cons_of_mem _ he)

/-- **The loop makes calls** and nothing else. -/
theorem Runs.joined {p : Process} (h : Runs cfg clock actions p) :
    Joined cfg clock actions p.trader := by
  induction h with
  | @start tcfg tclock kernel reply login p actions hreply hstart =>
    unfold Trader.start at hstart
    cases hnew : Trader.new tcfg tclock kernel with
    | none =>
      rw [hnew] at hstart
      cases hstart
    | some t =>
      rw [hnew] at hstart
      dsimp only at hstart
      split at hstart
      · cases hstart
      · obtain ⟨t', ht', rfl⟩ := Option.map_eq_some_iff.mp hstart
        have hconnected := (Joined.start actions hnew hreply).elsewhere (.connects login ht')
        exact (hconnected.elsewhere (.deadline _)).elsewhere .ticks
  | exchange a _ ih => exact ih.exchange a
  | @batch actions p batch _ hbatch ih =>
    unfold Process.step
    cases p.phase with
    | running =>
      dsimp only
      split
      · exact ((ih.elsewhere .cancels).elsewhere (.stops false)).elsewhere .ticks
      · exact ih.pump hbatch
    | winding =>
      dsimp only
      split
      · exact (ih.elsewhere .ticks).pump hbatch
      · unfold Process.finish
        dsimp only
        split
        · exact ih.elsewhere (.sends _)
        · exact ih
    | finished => exact ih

end PulseForge.Trader
