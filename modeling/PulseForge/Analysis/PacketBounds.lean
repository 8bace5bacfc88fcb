import PulseForge.Analysis.FeedNumbering
import PulseForge.Analysis.PacketDecode

/-!
# Packets are parsed inside the datagram

The loop of `for_each_message` keeps its offset inside the datagram, so `n - pos` is the number
of bytes left whatever the count and the lengths in the packet say. Every view it hands out lies
inside the datagram and behind the one before, and all that `handle_packet` loads is inside too.
-/

set_option autoImplicit false

namespace PulseForge.Datagram

open Foundation

variable {d : Datagram} {σ : Type}

/-! ## Views -/

/-- The views of blocks that stand one behind the other from `pos` on, numbered from `first`. -/
def viewsFrom : ℕ → ℕ → List Bytes → List MessageView
  | _, _, [] => []
  | first, pos, msg :: msgs =>
    ⟨first % 2 ^ 64, pos + 2, msg.length⟩ :: viewsFrom (first + 1) (pos + 2 + msg.length) msgs

theorem length_block (msg : Bytes) : (Mold.block msg).length = 2 + msg.length := by
  rw [Mold.block, List.length_append, length_beBytes]

/-- **Inside**: no view reaches past the blocks. -/
theorem viewsFrom_inside {first pos : ℕ} {msgs : List Bytes} {v : MessageView}
    (hv : v ∈ viewsFrom first pos msgs) :
    pos ≤ v.ptr ∧ v.ptr + v.len ≤ pos + (msgs.flatMap Mold.block).length := by
  induction msgs generalizing first pos with
  | nil => cases hv
  | cons msg msgs ih =>
    rw [List.flatMap_cons, List.length_append, length_block]
    rcases List.mem_cons.mp hv with rfl | hv
    · dsimp only
      omega
    · have hrest := ih hv
      omega

/-- **One behind the other.** -/
theorem viewsFrom_pairwise (first pos : ℕ) (msgs : List Bytes) :
    (viewsFrom first pos msgs).Pairwise fun v w => v.ptr + v.len ≤ w.ptr := by
  induction msgs generalizing first pos with
  | nil => exact .nil
  | cons msg msgs ih =>
    apply List.Pairwise.cons
    · intro w hw
      exact (viewsFrom_inside hw).1
    · exact ih _ _

/-- **What the views show** are the blocks, numbered from `first` on. -/
theorem viewsFrom_read {first pos : ℕ} {msgs : List Bytes} {tail : Bytes}
    (h : d.bytes.drop pos = msgs.flatMap Mold.block ++ tail) :
    (viewsFrom first pos msgs).map (fun v => (v.seq, d.slice v.ptr v.len)) =
      Mold.numbered first msgs := by
  induction msgs generalizing first pos with
  | nil => rfl
  | cons msg msgs ih =>
    rw [List.flatMap_cons, Mold.block, List.append_assoc, List.append_assoc] at h
    have htwo : d.bytes.drop (pos + 2) = msg ++ (msgs.flatMap Mold.block ++ tail) := by
      rw [← List.drop_drop, h, List.drop_left' (length_beBytes 2 _)]
    have hmsg : d.slice (pos + 2) msg.length = msg := by
      rw [slice, htwo, List.take_left]
    have hrest : d.bytes.drop (pos + 2 + msg.length) = msgs.flatMap Mold.block ++ tail := by
      rw [← List.drop_drop, htwo, List.drop_left]
    rw [Mold.numbered_cons, viewsFrom, List.map_cons, ih hrest]
    dsimp only
    rw [hmsg]

/-! ## The loop -/

/-- **The loop** makes its calls on the blocks that are there, within `count` steps. -/
theorem messageLoop_eq (h : Mold.Header) (f : σ → MessageView → Option σ) {fuel i pos : ℕ}
    (hi : i ≤ h.count) (hcount : h.count < 2 ^ 16) (hfuel : h.count - i < fuel)
    (hpos : pos ≤ d.bytes.length) (s : σ) :
    d.messageLoop h f fuel i pos s =
      ((viewsFrom (h.sequence + i) pos
        (Mold.blocks (h.count - i) (d.bytes.drop pos)).1).foldlM f s).map
          fun s => (s, (Mold.blocks (h.count - i) (d.bytes.drop pos)).2) := by
  have hfits := d.fits
  induction fuel generalizing i pos s with
  | zero => omega
  | succ fuel ih =>
    unfold messageLoop
    by_cases hlt : i < h.count
    · obtain ⟨left, hleft⟩ : ∃ left, h.count - i = left + 1 := ⟨h.count - i - 1, by omega⟩
      have hlen : (d.bytes.drop pos).length = d.bytes.length - pos := List.length_drop
      rw [if_pos hlt, hleft, subSize_eq hpos hfits, Mold.blocks, hlen]
      dsimp only
      by_cases h2 : d.bytes.length - pos < 2
      · rw [if_pos h2, if_pos h2]
        rfl
      · have hnext : (pos + 2) % 2 ^ 64 = pos + 2 := Nat.mod_eq_of_lt (by omega)
        have hload : d.load pos 2 = some ((d.bytes.drop pos).take 2) := load_eq (by omega)
        rw [if_neg h2, if_neg h2, hload, Option.bind_some, hnext,
          subSize_eq (show pos + 2 ≤ d.bytes.length by omega) hfits, List.drop_drop,
          List.length_drop]
        by_cases hshort : d.bytes.length - (pos + 2) < beVal ((d.bytes.drop pos).take 2)
        · rw [if_pos hshort, if_pos hshort]
          rfl
        · generalize hm : beVal ((d.bytes.drop pos).take 2) = mlen at hshort ⊢
          have hend : (pos + 2 + mlen) % 2 ^ 64 = pos + 2 + mlen := Nat.mod_eq_of_lt (by omega)
          have hstep : (i + 1) % 2 ^ 16 = i + 1 := Nat.mod_eq_of_lt (by omega)
          have hmsg : ((d.bytes.drop (pos + 2)).take mlen).length = mlen := by
            rw [List.length_take, List.length_drop]
            omega
          rw [if_neg hshort, if_neg hshort, hend, hstep, viewsFrom, List.foldlM_cons, hmsg,
            List.drop_drop]
          have hrest := fun s => ih (show i + 1 ≤ h.count by omega) (by omega)
            (show pos + 2 + mlen ≤ d.bytes.length by omega) s
          rw [show h.count - (i + 1) = left by omega] at hrest
          simp only [hrest]
          cases f s ⟨(h.sequence + i) % 2 ^ 64, pos + 2, mlen⟩ <;> rfl
    · obtain rfl : i = h.count := by omega
      rw [if_neg hlt, Nat.sub_self]
      rfl

/-- `parse_header` loads the first 20 bytes. -/
theorem parseHeader_eq (d : Datagram) : d.parseHeader = some (Mold.parseHeader d.bytes) := by
  unfold parseHeader Mold.parseHeader
  split_ifs with hshort
  · rfl
  · rw [Mold.kHeaderLen, not_lt] at hshort
    have hsession : d.load 0 Mold.kSessionLen = some (d.bytes.take 10) :=
      load_eq (le_trans (by decide) hshort)
    rw [hsession, load_eq (show 10 + 8 ≤ d.bytes.length by omega),
      load_eq (show 18 + 2 ≤ d.bytes.length by omega)]
    rfl

/-- A header that is parsed: the packet holds it, and its count is a 16-bit number. -/
theorem parseHeader_some {h : Mold.Header} (hh : Mold.parseHeader d.bytes = some h) :
    Mold.kHeaderLen ≤ d.bytes.length ∧ h.count < 2 ^ 16 := by
  unfold Mold.parseHeader at hh
  split_ifs at hh with hshort
  obtain rfl := Option.some.inj hh
  refine ⟨not_lt.mp hshort, lt_of_lt_of_le (beVal_lt _) ?_⟩
  rw [show (2 : ℕ) ^ 16 = 256 ^ 2 by rfl]
  apply Nat.pow_le_pow_right (by decide)
  rw [List.length_take]
  exact Nat.min_le_left _ _

/-- **The calls of `for_each_message`.** -/
theorem forEachMessage_eq {h : Mold.Header} (hh : Mold.parseHeader d.bytes = some h)
    (hend : h.count ≠ Mold.kEndOfSession) (f : σ → MessageView → Option σ) {fuel : ℕ}
    (hfuel : h.count < fuel) (s : σ) :
    d.forEachMessage h f fuel s =
      ((viewsFrom h.sequence Mold.kHeaderLen
        (Mold.blocks h.count (d.bytes.drop Mold.kHeaderLen)).1).foldlM f s).map
          fun s => (s, (Mold.blocks h.count (d.bytes.drop Mold.kHeaderLen)).2) := by
  obtain ⟨hlen, hcount⟩ := parseHeader_some hh
  unfold forEachMessage
  rw [if_neg hend]
  exact messageLoop_eq h f (Nat.zero_le _) hcount (by omega) hlen s

/-- A callback that never fails on a view of the packet. -/
theorem foldlM_some {α : Type} {f : σ → α → Option σ} {g : σ → α → σ} {vs : List α}
    (h : ∀ v ∈ vs, ∀ s, f s v = some (g s v)) (s : σ) : vs.foldlM f s = some (vs.foldl g s) := by
  induction vs generalizing s with
  | nil => rfl
  | cons v vs ih =>
    rw [List.foldlM_cons, h v List.mem_cons_self]
    exact ih (fun w hw => h w (List.mem_cons_of_mem _ hw)) _

/-! ## What the packet holds -/

/-- `count` length-prefixed blocks, namely `msgs`, stand behind the header. -/
def Holds (d : Datagram) (count : ℕ) (msgs : List Bytes) : Prop :=
  msgs.length = count ∧ (∀ msg ∈ msgs, msg.length < 2 ^ 16) ∧
    ∃ tail, d.bytes.drop Mold.kHeaderLen = msgs.flatMap Mold.block ++ tail

/-- The blocks of a packet are the messages it holds. -/
theorem Holds.blocks_eq {count : ℕ} {msgs : List Bytes} (h : d.Holds count msgs) :
    Mold.blocks count (d.bytes.drop Mold.kHeaderLen) = (msgs, true) := by
  obtain ⟨rfl, hlens, tail, htail⟩ := h
  rw [htail]
  exact Mold.blocks_flatMap msgs hlens tail

/-- A packet that was walked to its end holds its messages. -/
theorem holds_of_ok {count : ℕ}
    (h : (Mold.blocks count (d.bytes.drop Mold.kHeaderLen)).2 = true) :
    d.Holds count (Mold.blocks count (d.bytes.drop Mold.kHeaderLen)).1 := by
  obtain ⟨hlens, htail, hcount⟩ := Mold.blocks_prefix count (d.bytes.drop Mold.kHeaderLen)
  exact ⟨hcount h, hlens, htail⟩

/-! ## `handle_packet` -/

/-- What is decoded in place is what is applied. -/
theorem applied_eq (p : Trader.Pass) (m : Bytes) : applied p (Itch.decode m) = p.apply m := by
  unfold applied Trader.Pass.apply
  cases Itch.decode m <;> rfl

/-- **The callback** on a view of the packet. -/
theorem onMessage_eq {v : MessageView} (hv : v.ptr + v.len ≤ d.bytes.length) (p : Trader.Pass) :
    d.onMessage p v = some (p.onMessage (v.seq, d.slice v.ptr v.len)) := by
  unfold onMessage Trader.Pass.onMessage
  split_ifs with hskip
  · rfl
  · dsimp only
    rcases p.trader.seq.onMessage v.seq with ⟨verdict, seq⟩
    cases verdict with
    | duplicate => rfl
    | gap => rfl
    | apply =>
      dsimp only
      rw [decode_eq hv, Option.map_some, applied_eq]

/-- The views of a packet lie inside it. -/
theorem blocks_inside {h : Mold.Header} (hh : Mold.parseHeader d.bytes = some h)
    {v : MessageView} (hv : v ∈ viewsFrom h.sequence Mold.kHeaderLen
      (Mold.blocks h.count (d.bytes.drop Mold.kHeaderLen)).1) :
    Mold.kHeaderLen ≤ v.ptr ∧ v.ptr + v.len ≤ d.bytes.length := by
  obtain ⟨hlen, -⟩ := parseHeader_some hh
  obtain ⟨-, ⟨tail, htail⟩, -⟩ := Mold.blocks_prefix h.count (d.bytes.drop Mold.kHeaderLen)
  obtain ⟨hlow, hhigh⟩ := viewsFrom_inside hv
  have htotal := congrArg List.length htail
  rw [List.length_drop, List.length_append] at htotal
  omega

/-- **The loads of `handle_packet`** are inside the datagram, and it does what it does on a
copy. -/
theorem handlePacket_eq (t : Trader) (reply : SnapshotReply) {fuel : ℕ} (hfuel : 2 ^ 16 ≤ fuel) :
    d.handlePacket fuel t reply = some (t.handlePacket d.bytes reply) := by
  unfold handlePacket Trader.handlePacket
  rw [parseHeader_eq, Option.bind_some]
  cases hh : Mold.parseHeader d.bytes with
  | none => rfl
  | some h =>
    dsimp only
    by_cases hend : h.count = Mold.kEndOfSession
    · rw [if_pos hend, if_pos hend]
    · rw [if_neg hend, if_neg hend]
      split_ifs with hsync hempty
      · rfl
      · cases t.seq.onHeartbeat h.sequence <;> rfl
      · have hcount := (parseHeader_some hh).2
        obtain ⟨-, ⟨tail, htail⟩, -⟩ := Mold.blocks_prefix h.count (d.bytes.drop Mold.kHeaderLen)
        have hcalls : (Mold.forEachMessage d.bytes h).1 =
            (viewsFrom h.sequence Mold.kHeaderLen
              (Mold.blocks h.count (d.bytes.drop Mold.kHeaderLen)).1).map
                fun v => (v.seq, d.slice v.ptr v.len) := by
          unfold Mold.forEachMessage
          rw [if_neg hend, viewsFrom_read htail]
          rfl
        rw [forEachMessage_eq hh hend _ (by omega),
          foldlM_some fun v hv p => onMessage_eq (blocks_inside hh hv).2 p, hcalls,
          List.foldl_map]
        rfl

/-! ## Every datagram -/

/-- What `for_each_message` hands out, in the order of the calls, and what it returns. -/
def views (d : Datagram) (h : Mold.Header) (fuel : ℕ) : Option (List MessageView × Bool) :=
  d.forEachMessage h (fun vs v => some (vs ++ [v])) fuel []

/-- The views of the loop are the messages of the packet. -/
theorem views_eq {h : Mold.Header} (hh : Mold.parseHeader d.bytes = some h)
    (hend : h.count ≠ Mold.kEndOfSession) {fuel : ℕ} (hfuel : h.count < fuel) :
    d.views h fuel =
      some (viewsFrom h.sequence Mold.kHeaderLen
        (Mold.blocks h.count (d.bytes.drop Mold.kHeaderLen)).1,
        (Mold.blocks h.count (d.bytes.drop Mold.kHeaderLen)).2) := by
  have hcollect (vs : List MessageView) : vs.foldl (fun vs v => vs ++ [v]) [] = vs := by
    rw [List.foldl_append_eq_append, List.nil_append, ← List.flatMap_def, List.flatMap_singleton']
  unfold views
  rw [forEachMessage_eq hh hend _ hfuel, foldlM_some fun _ _ _ => rfl, Option.map_some, hcollect]

/-- **The blocks are delivered**, one after the other, with the numbers from the header on. -/
theorem delivered_of_holds {h : Mold.Header} {msgs : List Bytes} (hmsgs : d.Holds h.count msgs) :
    (viewsFrom h.sequence Mold.kHeaderLen msgs).map (fun v => d.slice v.ptr v.len) = msgs ∧
      ∀ k v, (viewsFrom h.sequence Mold.kHeaderLen msgs)[k]? = some v →
        v.seq = (h.sequence + k) % 2 ^ 64 := by
  obtain ⟨-, -, tail, htail⟩ := hmsgs
  have hread : (viewsFrom h.sequence Mold.kHeaderLen msgs).map
      (fun v => (v.seq, d.slice v.ptr v.len)) = Mold.numbered h.sequence msgs :=
    viewsFrom_read htail
  constructor
  · have hsnd := congrArg (List.map Prod.snd) hread
    rw [List.map_map] at hsnd
    refine hsnd.trans ?_
    unfold Mold.numbered
    rw [List.map_map]
    exact List.zipIdx_map_fst 0 msgs
  · intro k v hv
    have hk := congrArg (fun l => l[k]?) hread
    simp only [List.getElem?_map, hv, Option.map_some, Mold.numbered, List.getElem?_zipIdx,
      Option.map_map] at hk
    cases hmsg : msgs[k]? with
    | none => simp [hmsg] at hk
    | some msg =>
      simp only [hmsg, Option.map_some, Function.comp_apply, Option.some.injEq, Prod.mk.injEq,
        Nat.zero_add] at hk
      exact hk.1

/-- **Packet parsing stays in bounds.** For every datagram: `parse_header` loads inside it; with
the header it gives, `for_each_message` ends within `count` steps, loads inside, hands out views
that lie inside behind the header and do not overlap, and returns true exactly when the count
says end of session or that many blocks are there, which then are what it hands out, numbered
from the header on; `itch::decode` of a view loads inside; and so does all of `handle_packet`. -/
theorem packet_in_bounds (d : Datagram) :
    d.parseHeader = some (Mold.parseHeader d.bytes) ∧
    (∀ h, d.parseHeader = some (some h) → ∀ fuel, h.count < fuel →
      ∃ vs ok, d.views h fuel = some (vs, ok) ∧
        (∀ v ∈ vs, Mold.kHeaderLen ≤ v.ptr ∧ v.ptr + v.len ≤ d.bytes.length) ∧
        (vs.Pairwise fun v w => v.ptr + v.len ≤ w.ptr) ∧
        (ok = true ↔ h.count = Mold.kEndOfSession ∨ ∃ msgs, d.Holds h.count msgs) ∧
        (h.count ≠ Mold.kEndOfSession → ∀ msgs, d.Holds h.count msgs →
          vs.map (fun v => d.slice v.ptr v.len) = msgs ∧
          ∀ k v, vs[k]? = some v → v.seq = (h.sequence + k) % 2 ^ 64) ∧
        ∀ v ∈ vs, d.decode v.ptr v.len = some (Itch.decode (d.slice v.ptr v.len))) ∧
    ∀ fuel t reply, 2 ^ 16 ≤ fuel →
      d.handlePacket fuel t reply = some (t.handlePacket d.bytes reply) := by
  refine ⟨parseHeader_eq d, ?_, fun fuel t reply hfuel => handlePacket_eq t reply hfuel⟩
  intro h hparse fuel hfuel
  have hh : Mold.parseHeader d.bytes = some h := by
    rw [parseHeader_eq] at hparse
    exact Option.some.inj hparse
  by_cases hend : h.count = Mold.kEndOfSession
  · refine ⟨[], true, ?_, by simp, .nil, ?_, fun hne => absurd hend hne, by simp⟩
    · unfold views forEachMessage
      rw [if_pos hend]
    · exact ⟨fun _ => .inl hend, fun _ => rfl⟩
  · refine ⟨_, _, views_eq hh hend hfuel, fun v hv => blocks_inside hh hv, viewsFrom_pairwise _ _ _,
      ?_, ?_, fun v hv => decode_eq (blocks_inside hh hv).2⟩
    · constructor
      · intro hok
        exact .inr ⟨_, holds_of_ok hok⟩
      · rintro (hcount | ⟨msgs, hmsgs⟩)
        · exact absurd hcount hend
        · rw [hmsgs.blocks_eq]
    · intro _ msgs hmsgs
      rw [hmsgs.blocks_eq]
      exact delivered_of_holds hmsgs

end PulseForge.Datagram
