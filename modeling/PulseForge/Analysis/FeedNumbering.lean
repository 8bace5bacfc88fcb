import PulseForge.Foundation.Machine
import PulseForge.Analysis.ItchCodec
import PulseForge.Model.Mold

/-!
# The feed numbers its messages without gaps

A run of the feed is any list of `publish`, `flush` and `heartbeat_if_idle`. The messages
published so far are those in the packets already flushed, followed by those in the packet
being built (`Numbered`). Parsing the flushed packets gives back the messages of the first
kind, numbered from 1.
-/

set_option autoImplicit false

namespace PulseForge

open Foundation

namespace Mold

/-- What a receiver reads in a packet: the numbered messages, and whether the packet is
well-formed. -/
def parse (pkt : Bytes) : Option (Header × List (ℕ × Bytes) × Bool) :=
  (parseHeader pkt).map fun h => (h, forEachMessage pkt h)

/-- The messages of a packet that parses. -/
def delivered (pkt : Bytes) : List (ℕ × Bytes) :=
  match parse pkt with
  | none => []
  | some (_, msgs, _) => msgs

/-- Messages numbered from `first` on, as the `uint64_t` counter has it. -/
def numbered (first : ℕ) (msgs : List Bytes) : List (ℕ × Bytes) :=
  msgs.zipIdx.map fun (msg, i) => ((first + i) % 2 ^ 64, msg)

/-- The numbers of two lists of messages. -/
theorem numbered_append (first : ℕ) (msgs msgs' : List Bytes) :
    numbered first (msgs ++ msgs') =
      numbered first msgs ++ numbered (first + msgs.length) msgs' := by
  simp only [numbered, List.zipIdx_append, List.map_append, Nat.zero_add, List.append_cancel_left_eq]
  rw [List.zipIdx_eq_map_add, List.map_map]
  congr 1
  funext ⟨msg, i⟩
  simp only [Function.comp_apply]
  congr 2
  omega

theorem numbered_cons (first : ℕ) (msg : Bytes) (msgs : List Bytes) :
    numbered first (msg :: msgs) = (first % 2 ^ 64, msg) :: numbered (first + 1) msgs :=
  numbered_append first [msg] msgs

/-- A message block. -/
def block (msg : Bytes) : Bytes := beBytes 2 msg.length ++ msg

/-- The blocks from one on. -/
theorem blocks_block (count : ℕ) {msg : Bytes} (h : msg.length < 2 ^ 16) (rest : Bytes) :
    blocks (count + 1) (block msg ++ rest) =
      (msg :: (blocks count rest).1, (blocks count rest).2) := by
  have hlen : beVal (beBytes 2 msg.length) = msg.length := beVal_beBytes_of_lt h
  have htake : (block msg ++ rest).take 2 = beBytes 2 msg.length := by
    rw [block, List.append_assoc, List.take_left' (length_beBytes 2 _)]
  have hdrop : (block msg ++ rest).drop 2 = msg ++ rest := by
    rw [block, List.append_assoc, List.drop_left' (length_beBytes 2 _)]
  rw [blocks, if_neg (by simp [block]; omega)]
  dsimp only
  rw [htake, hdrop, hlen, if_neg (by simp), List.drop_left, List.take_left]

/-- **The blocks of a packet** read back, whatever stands behind them. -/
theorem blocks_flatMap (msgs : List Bytes) (h : ∀ msg ∈ msgs, msg.length < 2 ^ 16)
    (rest : Bytes) : blocks msgs.length (msgs.flatMap block ++ rest) = (msgs, true) := by
  induction msgs with
  | nil => rfl
  | cons msg msgs ih =>
    rw [List.length_cons, List.flatMap_cons, List.append_assoc,
      blocks_block _ (h msg List.mem_cons_self), ih fun m hm => h m (List.mem_cons_of_mem _ hm)]

/-- A string that starts with a length and that many bytes starts with a block. -/
theorem exists_block {rest : Bytes} (h2 : 2 ≤ rest.length)
    (hlen : beVal (rest.take 2) ≤ rest.length - 2) :
    ∃ msg tail, msg.length < 2 ^ 16 ∧ msg.length = beVal (rest.take 2) ∧
      rest = block msg ++ tail := by
  have htwo : (rest.take 2).length = 2 := List.length_take_of_le h2
  have hlt := beVal_lt (rest.take 2)
  have hmsg : ((rest.drop 2).take (beVal (rest.take 2))).length = beVal (rest.take 2) := by
    rw [List.length_take, List.length_drop]
    omega
  refine ⟨(rest.drop 2).take (beVal (rest.take 2)), (rest.drop 2).drop (beVal (rest.take 2)), ?_,
    hmsg, ?_⟩
  · rw [hmsg]
    rw [htwo] at hlt
    exact hlt
  · rw [block, hmsg, beBytes_beVal _ htwo, List.append_assoc, List.take_append_drop,
      List.take_append_drop]

/-- **What is delivered** are blocks of the packet from its first one on, `count` of them when
nothing is missing. -/
theorem blocks_prefix (count : ℕ) (rest : Bytes) :
    (∀ msg ∈ (blocks count rest).1, msg.length < 2 ^ 16) ∧
      (∃ tail, rest = (blocks count rest).1.flatMap block ++ tail) ∧
      ((blocks count rest).2 = true → (blocks count rest).1.length = count) := by
  induction count generalizing rest with
  | zero => exact ⟨by simp [blocks], ⟨rest, rfl⟩, fun _ => rfl⟩
  | succ count ih =>
    by_cases h2 : rest.length < 2
    · rw [blocks, if_pos h2]
      exact ⟨by simp, ⟨rest, rfl⟩, by simp⟩
    · by_cases hlen : (rest.drop 2).length < beVal (rest.take 2)
      · rw [blocks, if_neg h2]
        dsimp only
        rw [if_pos hlen]
        exact ⟨by simp, ⟨rest, rfl⟩, by simp⟩
      · rw [List.length_drop] at hlen
        obtain ⟨msg, tail, hmsg, -, rfl⟩ := exists_block (not_lt.mp h2) (not_lt.mp hlen)
        obtain ⟨hlens, ⟨tail', htail⟩, hcount⟩ := ih tail
        rw [blocks_block count hmsg tail]
        refine ⟨?_, ⟨tail', ?_⟩, ?_⟩
        · intro m hm
          rcases List.mem_cons.mp hm with rfl | hm
          · exact hmsg
          · exact hlens m hm
        · rw [List.flatMap_cons, List.append_assoc, ← htail]
        · intro hok
          rw [List.length_cons, hcount hok]

namespace PacketBuilder

/-- The builder holds `msgs`, the first of which gets the number `first`. -/
structure Holds (p : PacketBuilder) (first : ℕ) (msgs : List Bytes) : Prop where
  session : p.session.length = kSessionLen
  firstSeq : p.firstSeq = first
  count : p.count = msgs.length
  body : p.body = msgs.flatMap block
  size : p.size ≤ kMaxPacketLen

variable {p : PacketBuilder} {first : ℕ} {msgs : List Bytes}

/-- Every block takes two bytes and more. -/
theorem Holds.length_le (h : p.Holds first msgs) :
    msgs.length ≤ 690 ∧ ∀ msg ∈ msgs, msg.length < 2 ^ 16 := by
  have hbody : (msgs.flatMap block).length ≤ 1380 := by
    have hsize := h.size
    simp only [PacketBuilder.size, h.body, kHeaderLen, kMaxPacketLen] at hsize
    omega
  have hblock : ∀ msg : Bytes, (block msg).length = msg.length + 2 := by
    intro msg
    simp only [block, List.length_append, length_beBytes]
    omega
  refine ⟨?_, fun msg hmsg => ?_⟩
  · have hsum : 2 * msgs.length ≤ (msgs.flatMap block).length := by
      clear hbody h
      induction msgs with
      | nil => simp
      | cons msg msgs ih =>
        rw [List.flatMap_cons, List.length_append, hblock, List.length_cons]
        omega
    omega
  · have hle : (block msg).length ≤ (msgs.flatMap block).length := by
      rw [List.length_flatMap]
      exact List.single_le_sum (by simp) _ (List.mem_map_of_mem hmsg)
    rw [hblock] at hle
    omega

/-- **A finished packet** parses to its messages, numbered from its first. -/
theorem Holds.parse_data (h : p.Holds first msgs) :
    parse p.finish.data =
        some (⟨p.session, first % 2 ^ 64, msgs.length⟩, numbered first msgs, true) ∧
      p.finish.data.length ≤ kMaxPacketLen := by
  obtain ⟨hcount, hlen⟩ := h.length_le
  have hses := h.session
  simp only [kSessionLen] at hses
  have hdata : p.finish.data = p.session ++ (beBytes 8 first ++ (beBytes 2 msgs.length ++
      msgs.flatMap block)) := by
    simp [data, finish, h.firstSeq, h.count, h.body]
  have hsize : p.finish.data.length = p.size := by
    rw [hdata]
    simp only [List.length_append, hses, length_beBytes, PacketBuilder.size, kHeaderLen, h.body]
    omega
  have htake10 : p.finish.data.take 10 = p.session := by
    rw [hdata, List.take_left' hses]
  have hdrop10 : p.finish.data.drop 10 = beBytes 8 first ++ (beBytes 2 msgs.length ++
      msgs.flatMap block) := by
    rw [hdata, List.drop_left' hses]
  have hdrop18 : p.finish.data.drop 18 = beBytes 2 msgs.length ++ msgs.flatMap block := by
    rw [show 18 = 10 + 8 from rfl, ← List.drop_drop, hdrop10, List.drop_left' (length_beBytes 8 _)]
  have hdrop20 : p.finish.data.drop 20 = msgs.flatMap block := by
    rw [show 20 = 18 + 2 from rfl, ← List.drop_drop, hdrop18, List.drop_left' (length_beBytes 2 _)]
  have hheader : parseHeader p.finish.data =
      some ⟨p.session, first % 2 ^ 64, msgs.length⟩ := by
    rw [parseHeader, if_neg (by rw [hsize]; simp [PacketBuilder.size]), htake10, hdrop10, hdrop18,
      List.take_left' (length_beBytes 8 _), List.take_left' (length_beBytes 2 _), beVal_beBytes,
      beVal_beBytes_of_lt (show msgs.length < 256 ^ 2 by omega)]
    rfl
  refine ⟨?_, hsize ▸ h.size⟩
  have hmsgs : forEachMessage p.finish.data ⟨p.session, first % 2 ^ 64, msgs.length⟩ =
      (numbered first msgs, true) := by
    rw [forEachMessage, if_neg (by simp only [kEndOfSession]; omega)]
    dsimp only
    rw [kHeaderLen, hdrop20, ← List.append_nil (msgs.flatMap block), blocks_flatMap msgs hlen]
    simp only [numbered, Nat.mod_add_mod]
  rw [parse, hheader, Option.map_some, hmsgs]

/-- A message that fits. -/
theorem Holds.append (h : p.Holds first msgs) {msg : Bytes} (hok : (p.append msg).2 = true) :
    (p.append msg).1.Holds first (msgs ++ [msg]) := by
  have hcount := h.length_le.1
  unfold PacketBuilder.append at hok ⊢
  split at hok
  · simp at hok
  · next hfit =>
    have hfit' := hfit
    push Not at hfit
    rw [if_neg hfit']
    obtain ⟨-, hroom⟩ := hfit
    refine ⟨h.session, h.firstSeq, ?_, ?_, ?_⟩
    · simp only [h.count, List.length_append, List.length_singleton]
      omega
    · simp [h.body, block]
    · have hsize := h.size
      simp only [PacketBuilder.size, List.length_append, length_beBytes, kHeaderLen,
        kMaxPacketLen] at hroom hsize ⊢
      omega

/-- An empty packet has room for every message of the feed. -/
theorem Holds.append_of_empty (h : p.Holds first []) {msg : Bytes} (hlen : msg.length ≤ 1000) :
    (p.append msg).2 = true := by
  have hbody : p.body = [] := h.body
  rw [PacketBuilder.append, if_neg]
  simp only [PacketBuilder.size, hbody, kHeaderLen, kMaxPacketLen, List.length_nil]
  omega

/-- `begin` starts an empty packet. -/
theorem Holds.begin (h : p.Holds first msgs) (first' : ℕ) : (p.begin first').Holds first' [] :=
  ⟨h.session, rfl, rfl, rfl, by simp [PacketBuilder.begin, PacketBuilder.size, kHeaderLen,
    kMaxPacketLen]⟩

/-- `finish` changes none of the messages. -/
theorem Holds.finish (h : p.Holds first msgs) : p.finish.Holds first msgs :=
  ⟨h.session, h.firstSeq, h.count, h.body, h.size⟩

end PacketBuilder

end Mold

/-- A call on the feed, with the readings of the clock it makes. -/
inductive FeedOp where
  | publish (m : Itch.Message) (now : ℕ)
  | flush (now : ℕ)
  | heartbeat (nowMono now : ℕ)

/-- The bytes that a call publishes. -/
def FeedOp.publishes : FeedOp → List Bytes
  | .publish m _ => [Itch.encode m Itch.kMaxMessageLen]
  | .flush _ | .heartbeat _ _ => []

namespace MarketDataFeed

open Mold

variable {md : MarketDataFeed} {packets published : List Bytes}

/-- The packet that `flush` completes, sent or dropped. -/
def outgoing (md : MarketDataFeed) : List Bytes :=
  if md.pkt.count = 0 then [] else [md.pkt.finish.data]

/-- One call, and the packets it completes (exchange.cpp:258-302). -/
def call (md : MarketDataFeed) : FeedOp → MarketDataFeed × List Bytes
  | .publish m now =>
    let bs := Itch.encode m Itch.kMaxMessageLen
    if 0 < bs.length then
      (md.publish now bs, if (md.pkt.append bs).2 then [] else md.outgoing)
    else (md, [])
  | .flush now => (md.flush now, md.outgoing)
  | .heartbeat nowMono now => (md.heartbeatIfIdle nowMono now, [])

/-- The packets that go out: every `dropEvery`-th is dropped on purpose. -/
def kept (dropEvery : ℕ) (packets : List Bytes) : List Bytes :=
  packets.zipIdx.filterMap fun (pkt, i) =>
    if 0 < dropEvery ∧ (i + 1) % dropEvery = 0 then none else some pkt

/-- A flushed packet, given how many messages went before it. -/
structure GoodPacket (before : ℕ) (pkt : Bytes) : Prop where
  length : pkt.length ≤ kMaxPacketLen
  parses : ∃ h msgs, parse pkt = some (h, msgs, true) ∧ msgs ≠ [] ∧ h.count = msgs.length ∧
    h.sequence = (1 + before) % 2 ^ 64

/-- The feed after `published` was published and `packets` were flushed. -/
structure Numbered (md : MarketDataFeed) (packets published : List Bytes) : Prop where
  parts : ∃ done pending, published = done ++ pending ∧ md.pkt.Holds md.nextSeq pending ∧
    md.nextSeq = done.length + 1 ∧ packets.flatMap delivered = numbered 1 done
  good : ∀ before pkt after, packets = before ++ pkt :: after →
    GoodPacket (before.flatMap delivered).length pkt
  counted : md.packets = packets.length
  sent : md.sent.filter (fun d => delivered d ≠ []) = kept md.dropEvery packets

theorem kept_concat (dropEvery : ℕ) (packets : List Bytes) (pkt : Bytes) :
    kept dropEvery (packets ++ [pkt]) = kept dropEvery packets ++
      if 0 < dropEvery ∧ (packets.length + 1) % dropEvery = 0 then [] else [pkt] := by
  simp only [kept, List.zipIdx_append, List.filterMap_append, Nat.zero_add]
  congr 1
  simp only [List.zipIdx_cons, List.zipIdx_nil, List.filterMap_cons, List.filterMap_nil]
  split_ifs <;> rfl

/-- What a packet delivers when it is parsed. -/
theorem delivered_of_parse {pkt : Bytes} {h : Header} {msgs : List (ℕ × Bytes)} {ok : Bool}
    (hp : parse pkt = some (h, msgs, ok)) : delivered pkt = msgs := by
  rw [delivered, hp]

theorem length_numbered (first : ℕ) (msgs : List Bytes) :
    (numbered first msgs).length = msgs.length := by
  simp [numbered]

theorem GoodPacket.delivered_ne_nil {before : ℕ} {pkt : Bytes} (h : GoodPacket before pkt) :
    delivered pkt ≠ [] := by
  obtain ⟨_, msgs, hparse, hne, -⟩ := h.parses
  rw [delivered_of_parse hparse]
  exact hne

/-- The packet of pending messages. -/
theorem goodPacket_data {p : PacketBuilder} {before : ℕ} {pending : List Bytes}
    (hholds : p.Holds (before + 1) pending) (hne : pending ≠ []) :
    delivered p.finish.data = numbered (before + 1) pending ∧
      GoodPacket before p.finish.data := by
  obtain ⟨hparse, hlen⟩ := hholds.parse_data
  refine ⟨delivered_of_parse hparse, hlen, _, _, hparse, ?_, (length_numbered _ _).symm, ?_⟩
  · intro hc
    have hzero := congrArg List.length hc
    rw [length_numbered] at hzero
    exact hne (List.eq_nil_of_length_eq_zero hzero)
  · show (before + 1) % 2 ^ 64 = _
    rw [Nat.add_comm]

/-- One more good packet. -/
theorem good_concat {pkt : Bytes}
    (hgood : ∀ before p after, packets = before ++ p :: after →
      GoodPacket (before.flatMap delivered).length p)
    (hpkt : GoodPacket (packets.flatMap delivered).length pkt) (before : List Bytes) (p : Bytes)
    (after : List Bytes) (heq : packets ++ [pkt] = before ++ p :: after) :
    GoodPacket (before.flatMap delivered).length p := by
  rcases List.eq_nil_or_concat after with rfl | ⟨after', q, rfl⟩
  · obtain ⟨rfl, hlast⟩ := List.append_inj' heq rfl
    obtain rfl := List.cons.inj hlast |>.1
    exact hpkt
  · have hsplit : packets ++ [pkt] = (before ++ p :: after') ++ [q] := by
      rw [heq]
      simp
    obtain ⟨hpre, -⟩ := List.append_inj' hsplit rfl
    exact hgood before p after' hpre

/-- What a flush of a packet that is not empty leaves. -/
theorem flush_frame (hcount : md.pkt.count ≠ 0) (now : ℕ) :
    (md.flush now).pkt = md.pkt.finish.begin (md.nextSeq + md.pkt.count) ∧
      (md.flush now).nextSeq = md.nextSeq + md.pkt.count ∧
      (md.flush now).packets = md.packets + 1 ∧ (md.flush now).dropEvery = md.dropEvery ∧
      (md.flush now).sent = md.sent ++
        if 0 < md.dropEvery ∧ (md.packets + 1) % md.dropEvery = 0 then []
        else [md.pkt.finish.data] := by
  unfold MarketDataFeed.flush
  rw [if_neg hcount]
  dsimp only
  split
  · exact ⟨rfl, rfl, rfl, rfl, (List.append_nil _).symm⟩
  · exact ⟨rfl, rfl, rfl, rfl, rfl⟩

/-- The configuration stays. -/
theorem dropEvery_flush (md : MarketDataFeed) (now : ℕ) :
    (md.flush now).dropEvery = md.dropEvery := by
  by_cases hcount : md.pkt.count = 0
  · rw [MarketDataFeed.flush, if_pos hcount]
  · exact (flush_frame hcount now).2.2.2.1

/-- Nothing is pending behind a flush. -/
theorem count_flush (md : MarketDataFeed) (now : ℕ) : (md.flush now).pkt.count = 0 := by
  by_cases hcount : md.pkt.count = 0
  · rw [MarketDataFeed.flush, if_pos hcount]
    exact hcount
  · rw [(flush_frame hcount now).1]
    rfl

/-- Publishing does not change which packets are dropped. -/
theorem dropEvery_publish (md : MarketDataFeed) (now : ℕ) (msg : Bytes) :
    (md.publish now msg).dropEvery = md.dropEvery := by
  unfold MarketDataFeed.publish
  split
  · rfl
  · exact dropEvery_flush md now

/-- Between two packets. -/
theorem Numbered.idle (h : Numbered md packets published) (hcount : md.pkt.count = 0) :
    md.pkt.Holds md.nextSeq [] ∧ md.nextSeq = published.length + 1 ∧
      packets.flatMap delivered = numbered 1 published := by
  obtain ⟨done, pending, rfl, hholds, hnext, hdel⟩ := h.parts
  obtain rfl : pending = [] := List.eq_nil_of_length_eq_zero (hholds.count ▸ hcount)
  rw [List.append_nil]
  exact ⟨hholds, hnext, hdel⟩

/-- **`flush`**: the pending messages go into one more packet. -/
theorem Numbered.flush (h : Numbered md packets published) (now : ℕ) :
    Numbered (md.flush now) (packets ++ md.outgoing) published ∧
      (md.flush now).nextSeq = published.length + 1 ∧ (md.flush now).pkt.count = 0 := by
  unfold outgoing
  by_cases hcount : md.pkt.count = 0
  · rw [if_pos hcount, List.append_nil, MarketDataFeed.flush, if_pos hcount]
    exact ⟨h, (h.idle hcount).2.1, hcount⟩
  rw [if_neg hcount]
  obtain ⟨done, pending, hpub, hholds, hnext, hdel⟩ := h.parts
  have htotal : md.nextSeq + md.pkt.count = published.length + 1 := by
    rw [hnext, hholds.count, hpub, List.length_append]
    omega
  have hne : pending ≠ [] := by
    rintro rfl
    exact hcount hholds.count
  obtain ⟨hpkt, hseq, hpackets, hdrop, hsent⟩ := flush_frame hcount now
  obtain ⟨hdata, hgood⟩ := goodPacket_data (hnext ▸ hholds) hne
  refine ⟨⟨⟨published, [], (List.append_nil _).symm, ?_, ?_, ?_⟩, ?_, ?_, ?_⟩, ?_, ?_⟩
  · rw [hpkt, hseq]
    exact hholds.finish.begin _
  · rw [hseq, htotal]
  · rw [List.flatMap_append, hdel, hpub, numbered_append, List.flatMap_cons, List.flatMap_nil,
      List.append_nil, hdata, Nat.add_comm done.length 1]
  · refine good_concat h.good ?_
    rw [hdel, length_numbered]
    exact hgood
  · rw [hpackets, h.counted, List.length_append]
    rfl
  · rw [hsent, hdrop, kept_concat, List.filter_append, h.sent, h.counted]
    congr 1
    split
    · rfl
    · simp [hgood.delivered_ne_nil]
  · rw [hseq, htotal]
  · rw [hpkt]
    rfl

/-- A message has between 1 and 39 bytes. -/
theorem encode_length (m : Itch.Message) :
    0 < (Itch.encode m Itch.kMaxMessageLen).length ∧
      (Itch.encode m Itch.kMaxMessageLen).length ≤ 39 := by
  have hle : m.len ≤ Itch.kMaxMessageLen := by
    cases m <;> simp [Itch.Message.len, Itch.kMaxMessageLen]
  rw [Itch.encode_eq hle, m.length_layout]
  cases m <;> simp [Itch.Message.len]

/-- A message that fits joins the pending ones. -/
theorem Numbered.append (h : Numbered md packets published) {msg : Bytes}
    (hok : (md.pkt.append msg).2 = true) :
    Numbered { md with pkt := (md.pkt.append msg).1 } packets (published ++ [msg]) := by
  obtain ⟨done, pending, hpub, hholds, hnext, hdel⟩ := h.parts
  refine ⟨⟨done, pending ++ [msg], ?_, hholds.append hok, hnext, hdel⟩, h.good, h.counted, h.sent⟩
  rw [hpub, List.append_assoc]

/-- **`publish`**, also when the packet is full. -/
theorem Numbered.publish (h : Numbered md packets published) (now : ℕ) {msg : Bytes}
    (hlen : msg.length ≤ 39) :
    Numbered (md.publish now msg)
      (packets ++ if (md.pkt.append msg).2 then [] else md.outgoing) (published ++ [msg]) := by
  unfold MarketDataFeed.publish
  cases hok : (md.pkt.append msg).2 with
  | true =>
    have happ : md.pkt.append msg = ((md.pkt.append msg).1, true) := Prod.ext rfl hok
    rw [happ]
    simpa using h.append hok
  | false =>
    have happ : md.pkt.append msg = ((md.pkt.append msg).1, false) := Prod.ext rfl hok
    rw [happ]
    obtain ⟨hflush, -, hcount⟩ := h.flush now
    exact hflush.append ((hflush.idle hcount).1.append_of_empty (by omega))

/-- The heartbeat: no message, and the number of the next one. -/
structure GoodHeartbeat (published : List Bytes) (hb : Bytes) : Prop where
  length : hb.length ≤ kMaxPacketLen
  parses : ∃ h, parse hb = some (h, [], true) ∧ h.count = 0 ∧
    h.sequence = (published.length + 1) % 2 ^ 64

/-- **`heartbeat_if_idle`** sends nothing, or a heartbeat. -/
theorem Numbered.heartbeat (h : Numbered md packets published) (nowMono now : ℕ) :
    Numbered (md.heartbeatIfIdle nowMono now) packets published ∧
      ((md.heartbeatIfIdle nowMono now).sent = md.sent ∨
        ∃ hb, (md.heartbeatIfIdle nowMono now).sent = md.sent ++ [hb] ∧
          GoodHeartbeat published hb) := by
  unfold heartbeatIfIdle
  split
  · exact ⟨h, .inl rfl⟩
  · next hidle =>
    push Not at hidle
    obtain ⟨hholds, hnext, hdel⟩ := h.idle hidle.1
    obtain ⟨hparse, hlen⟩ := hholds.parse_data
    have hempty : delivered md.pkt.finish.data = [] := delivered_of_parse hparse
    refine ⟨⟨⟨published, [], (List.append_nil _).symm, hholds.finish, hnext, hdel⟩, h.good,
      h.counted, ?_⟩, .inr ⟨md.pkt.finish.data, rfl, hlen, _, hparse, rfl, ?_⟩⟩
    · show List.filter _ (md.sent ++ [md.pkt.finish.data]) = kept md.dropEvery packets
      rw [List.filter_append, h.sent]
      simp [hempty]
    · show md.nextSeq % 2 ^ 64 = _
      rw [hnext]

/-- One call. -/
theorem Numbered.call (h : Numbered md packets published) (op : FeedOp) :
    Numbered (md.call op).1 (packets ++ (md.call op).2) (published ++ op.publishes) := by
  cases op with
  | publish m now =>
    obtain ⟨hpos, hlen⟩ := encode_length m
    simp only [MarketDataFeed.call, if_pos hpos]
    exact h.publish now hlen
  | flush now =>
    rw [FeedOp.publishes, List.append_nil]
    exact (h.flush now).1
  | heartbeat nowMono now =>
    rw [FeedOp.publishes, List.append_nil]
    simp only [MarketDataFeed.call, List.append_nil]
    exact (h.heartbeat nowMono now).1

/-- A new feed has sent nothing. -/
theorem numbered_new (session : Bytes) (dropEvery : ℕ) : Numbered (.new session dropEvery) [] [] := by
  refine ⟨⟨[], [], rfl, ⟨?_, rfl, rfl, rfl, ?_⟩, rfl, rfl⟩, by simp, rfl, rfl⟩
  · simp [MarketDataFeed.new, PacketBuilder.begin]
  · simp [MarketDataFeed.new, PacketBuilder.begin, PacketBuilder.size, kHeaderLen, kMaxPacketLen]

/-- What a run of the feed guarantees, given the packets it flushed and the messages it
published. -/
structure Gapless (md : MarketDataFeed) (packets published : List Bytes) : Prop where
  /-- The flushed packets carry the first `n` messages, each once and in order, numbered from
  1 and unchanged; the others are in the packet being built. -/
  carried : ∃ n, n + md.pkt.count = published.length ∧
    packets.flatMap delivered = numbered 1 (published.take n)
  good : ∀ before pkt after, packets = before ++ pkt :: after →
    GoodPacket (before.flatMap delivered).length pkt
  /-- What went to the network, heartbeats apart. -/
  sent : md.sent.filter (fun d => delivered d ≠ []) = kept md.dropEvery packets
  heartbeat : ∀ nowMono now, (md.heartbeatIfIdle nowMono now).sent = md.sent ∨
    ∃ hb, (md.heartbeatIfIdle nowMono now).sent = md.sent ++ [hb] ∧ GoodHeartbeat published hb
  flushed : ∀ now, (md.flush now).nextSeq = published.length + 1 ∧
    (packets ++ md.outgoing).flatMap delivered = numbered 1 published

/-- **Feed numbering is gapless and faithful**, for every run of the feed: any messages, any
flushes and heartbeats between them, any readings of the clock and any simulated loss. -/
theorem feed_gapless (session : Bytes) (dropEvery : ℕ) (ops : List FeedOp) :
    Gapless (run call (.new session dropEvery) ops).1
      (run call (.new session dropEvery) ops).2.flatten (ops.flatMap FeedOp.publishes) := by
  have hrun : ∀ (ops : List FeedOp) (md : MarketDataFeed) (packets published : List Bytes),
      Numbered md packets published →
      Numbered (run call md ops).1 (packets ++ (run call md ops).2.flatten)
        (published ++ ops.flatMap FeedOp.publishes) := by
    intro ops
    induction ops with
    | nil => intro md packets published h; simpa using h
    | cons op ops ih =>
      intro md packets published h
      have hnext := ih _ _ _ (h.call op)
      simpa [run_cons, List.append_assoc] using hnext
  have h := hrun ops _ [] [] (numbered_new session dropEvery)
  rw [List.nil_append, List.nil_append] at h
  set md := (run call (.new session dropEvery) ops).1
  set packets := (run call (.new session dropEvery) ops).2.flatten
  set published := ops.flatMap FeedOp.publishes
  obtain ⟨done, pending, hpub, hholds, hnext, hdel⟩ := h.parts
  refine ⟨⟨done.length, ?_, ?_⟩, h.good, h.sent, fun nowMono now => (h.heartbeat nowMono now).2,
    fun now => ?_⟩
  · rw [hholds.count, hpub, List.length_append]
  · rw [hdel, hpub, List.take_left]
  · obtain ⟨hflush, hseq, hcount⟩ := h.flush now
    exact ⟨hseq, (hflush.idle hcount).2.2⟩

end MarketDataFeed

end PulseForge
