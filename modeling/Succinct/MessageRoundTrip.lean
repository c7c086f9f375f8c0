import Succinct.MessageWrites

/-!
Messages that are written and read again. All come back as they were but the
acknowledgements: the number of a link is read as a signed one, and a link
that finds no room is left out.
-/
namespace Succinct.MessageRoundTrip

open ByteBuffers Messages MessageFrames MessageStream MessageWrites

/-- The field values of the messages that are not about blocks of files: a
number has 16 bits or is absent, a time is a long, a name has no zero inside,
and an IPv6 address does not stand for an IPv4 one. -/
def Producible : Message → Prop
  | .header _ _ seq => -1 ≤ seq ∧ seq < 0x10000
  | .ack links => ∀ link ∈ links, -1 ≤ link.seq ∧ link.seq < 0x10000
  | .storeState _ _ => True
  | .syncMsg _ => True
  | .requestBlock _ _ _ => False
  | .fileBlock _ _ _ => False
  | .team epoc members => epoc < 256 ^ 8 ∧ NulFree (.team epoc members)
  | .requestTeam _ => True
  | .stun addresses => ∀ addr, InetAddress.inet6 addr ∈ addresses → ¬ mapped addr

/-- An acknowledgement has room for all its links, and no number is in the
upper half. -/
def Readable (room : ℕ) : Message → Prop
  | .ack links => (links.map LinkAck.size).sum ≤ room ∧ ∀ link ∈ links, link.seq < 0x8000
  | _ => True

theorem whole_of_producible {m : Message} (h : Producible m) : Whole m ∧ NulFree m := by
  cases m with
  | team epoc members => exact ⟨trivial, h.2⟩
  | requestBlock filename offset length => exact h.elim
  | fileBlock filename offset data => exact h.elim
  | _ => exact ⟨trivial, trivial⟩

theorem kept_sublist (room used : ℕ) (links : List LinkAck) :
    (kept room used links).Sublist links := by
  induction links generalizing used with
  | nil => exact List.Sublist.refl _
  | cons link links ih =>
    rw [kept]
    split
    · exact (ih used).cons link
    · exact (ih _).cons_cons link

theorem nine_le_size (link : LinkAck) : 9 ≤ LinkAck.size link := by
  unfold LinkAck.size
  split <;> decide

theorem kept_eq_self (room used : ℕ) (links : List LinkAck)
    (h : used + (links.map LinkAck.size).sum ≤ room) : kept room used links = links := by
  induction links generalizing used with
  | nil => rfl
  | cons link links ih =>
    rw [List.map_cons, List.sum_cons] at h
    have hsize := nine_le_size link
    rw [kept, if_neg (by omega), ih _ (by omega)]

theorem link_received_eq_iff (link : LinkAck) (hmin : -1 ≤ link.seq) (hmax : link.seq < 0x10000) :
    LinkAck.received link = link ↔ link.seq < 0x8000 := by
  obtain ⟨id, broadcast, unicast, seq⟩ := link
  rw [LinkAck.received]
  simp only [LinkAck.mk.injEq, true_and]
  dsimp only at hmin hmax
  by_cases hseq : 0 ≤ seq
  · rw [if_pos hseq, asShort]
    split <;> omega
  · rw [if_neg hseq]
    omega

/-- Every link is written if none is passed over. -/
theorem sum_le_of_written (heap : Heap) {room : ℕ} {body : List UInt8} {links : List LinkAck}
    (h : serialise room (.ack links) = some body) :
    ((kept room 0 links).map LinkAck.size).sum ≤ room := by
  have hfold : ∀ (links : List LinkAck) (out body : List UInt8), out.length ≤ room →
      links.foldlM (LinkAck.serialise room) out = some body → body.length ≤ room := by
    intro links
    induction links with
    | nil =>
      intro out body hout h
      rw [← Option.some.inj h]
      exact hout
    | cons link links ih =>
      intro out body hout h
      rw [List.foldlM_cons] at h
      obtain ⟨next, hlink, h⟩ := Option.bind_eq_some_iff.mp h
      refine ih next body ?_ h
      rw [LinkAck.serialise] at hlink
      split at hlink
      · rw [← Option.some.inj hlink]
        exact hout
      · obtain ⟨out', -, hlink⟩ := Option.bind_eq_some_iff.mp hlink
        obtain ⟨out'', hflags, hlink⟩ := Option.bind_eq_some_iff.mp hlink
        rw [putSeq] at hlink
        split at hlink
        · exact (put_eq_some hlink).2
        · rw [← Option.some.inj hlink]
          exact (put_eq_some hflags).2
  obtain ⟨tail, rfl, hsum, -⟩ := @creates_links heap room body links [] h
  exact hsum ▸ hfold links [] _ (Nat.zero_le _) h

theorem ack_received_eq_iff (heap : Heap) {room : ℕ} {body : List UInt8} {links : List LinkAck}
    (hproducible : ∀ link ∈ links, -1 ≤ link.seq ∧ link.seq < 0x10000)
    (h : serialise room (.ack links) = some body) :
    (kept room 0 links).map LinkAck.received = links ↔ Readable room (.ack links) := by
  constructor
  · intro heq
    have hkept : kept room 0 links = links := by
      apply (kept_sublist room 0 links).eq_of_length
      have hlen := congrArg List.length heq
      rwa [List.length_map] at hlen
    have hsum := sum_le_of_written heap h
    rw [hkept] at hsum heq
    refine ⟨hsum, ?_⟩
    intro link hlink
    obtain ⟨hmin, hmax⟩ := hproducible link hlink
    have hsame : links.map LinkAck.received = links.map id := by rw [heq, List.map_id]
    exact (link_received_eq_iff link hmin hmax).mp (List.map_inj_left.mp hsame link hlink)
  · rintro ⟨hsum, hsmall⟩
    rw [kept_eq_self room 0 links (by omega)]
    conv_rhs => rw [← List.map_id links]
    apply List.map_congr_left
    intro link hlink
    obtain ⟨hmin, hmax⟩ := hproducible link hlink
    exact (link_received_eq_iff link hmin hmax).mpr (hsmall link hlink)

theorem address_received (address : InetAddress)
    (h : ∀ addr, address = .inet6 addr → ¬ mapped addr) :
    InetAddress.received address = address := by
  cases address with
  | inet4 addr =>
    have hread := getD_ofFn addr []
    rw [List.append_nil] at hread
    rw [InetAddress.received, InetAddress.getAddress, getByAddress,
      if_pos List.length_ofFn, hread]
    rfl
  | inet6 addr =>
    have hlen : (List.ofFn addr).length = 16 := List.length_ofFn
    have hread := getD_ofFn addr []
    rw [List.append_nil] at hread
    rw [InetAddress.received, InetAddress.getAddress, getByAddress,
      if_neg (by omega), if_pos hlen,
      if_neg (show ¬ (List.ofFn addr).take 12 = List.replicate 10 0 ++
        [0xff, 0xff] from h addr rfl),
      hread]
    rfl

/-- What comes back is the message itself, if an acknowledgement is readable. -/
theorem received_eq_iff (heap : Heap) {room : ℕ} {body : List UInt8} {m : Message}
    (hproducible : Producible m) (h : serialise room m = some body) :
    received room m = m ↔ Readable room m := by
  cases m with
  | header id unicast seq =>
    obtain ⟨hmin, hmax⟩ := hproducible
    refine ⟨fun _ => trivial, fun _ => ?_⟩
    rw [received]
    congr 1
    split <;> omega
  | ack links =>
    rw [received, Message.ack.injEq]
    exact ack_received_eq_iff heap hproducible h
  | storeState teamId key => exact ⟨fun _ => trivial, fun _ => rfl⟩
  | syncMsg blob => exact ⟨fun _ => trivial, fun _ => rfl⟩
  | requestBlock filename offset length => exact hproducible.elim
  | fileBlock filename offset data => exact hproducible.elim
  | team epoc members =>
    refine ⟨fun _ => trivial, fun _ => ?_⟩
    rw [received, Nat.mod_eq_of_lt hproducible.1]
  | requestTeam teamId => exact ⟨fun _ => trivial, fun _ => rfl⟩
  | stun addresses =>
    refine ⟨fun _ => trivial, fun _ => ?_⟩
    rw [received]
    congr 1
    conv_rhs => rw [← List.map_id addresses]
    apply List.map_congr_left
    intro address haddress
    apply address_received
    rintro addr rfl
    exact hproducible addr haddress

/-- What write says it has written is read back wholly, as the message that its
factory makes of it. -/
theorem parse_received (heap : Heap) (w : Writing) (hproducible : Producible w.message)
    (hwritten : (write w.buff w.message).1 = true) :
    ∃ body after, serialise (w.buff.remaining - 3) w.message = some body ∧
      parseMessage heap (ByteBuffer.wrap w.written) =
        (.ok (some (received (w.buff.remaining - 3) w.message)), after) ∧
      after.position = w.written.length := by
  rcases written_spec w with ⟨-, hfalse⟩ | ⟨body, hroom, hbody, hframe, hfits⟩
  · rw [hfalse] at hwritten
    cases hwritten
  · obtain ⟨hwhole, hname⟩ := whole_of_producible hproducible
    have hcreate : create heap w.message.type body =
        (.ok (received (w.buff.remaining - 3) w.message), []) :=
      creates_received hroom hwhole hname hbody
    have hf : Frame heap w.written (received (w.buff.remaining - 3) w.message) :=
      ⟨hfits, _, body, hframe, hcreate⟩
    obtain ⟨after, hparse, -, -, hposition⟩ := hf.parse (ByteBuffer.wrap w.written) [] (by
      rw [slice_wrap, List.append_nil])
    refine ⟨body, after, hbody, hparse, ?_⟩
    rw [hposition]
    exact Nat.zero_add _

/-- A message that write says it has written is read back as itself, and wholly,
exactly if it is no acknowledgement with links left out or numbers in the upper
half. -/
theorem round_trip_iff (heap : Heap) (w : Writing) (hproducible : Producible w.message)
    (hwritten : (write w.buff w.message).1 = true) :
    (∃ after, parseMessage heap (ByteBuffer.wrap w.written) = (.ok (some w.message), after) ∧
      after.position = w.written.length) ↔ Readable (w.buff.remaining - 3) w.message := by
  obtain ⟨body, after, hbody, hparse, hend⟩ := parse_received heap w hproducible hwritten
  rw [← received_eq_iff heap hproducible hbody, hparse]
  constructor
  · rintro ⟨after', heq, -⟩
    exact Option.some.inj (Except.ok.inj (Prod.mk.inj heq).1)
  · intro heq
    exact ⟨after, by rw [heq], hend⟩

theorem writeFresh_remaining (m : Message) : (writeFresh m).buff.remaining = 1200 := by
  change (List.replicate MTU (0 : UInt8)).length - 0 = 1200
  rw [List.length_replicate]
  rfl

def smallAck : Message := .ack [⟨fun _ => 1, true, false, 7⟩, ⟨fun _ => 2, false, true, -1⟩]

theorem round_trip_small : ∃ after,
    parseMessage smallHeap (ByteBuffer.wrap (writeFresh smallAck).written) =
      (.ok (some smallAck), after) ∧ after.position = (writeFresh smallAck).written.length := by
  refine (round_trip_iff smallHeap (writeFresh smallAck) ?_ ?_).mpr ?_
  · intro link hlink
    rcases List.mem_pair.mp hlink with rfl | rfl
    · decide
    · decide
  · decide +kernel
  · rw [writeFresh_remaining]
    refine ⟨by decide, ?_⟩
    intro link hlink
    rcases List.mem_pair.mp hlink with rfl | rfl
    · decide
    · decide

def largeAck : Message := .ack [⟨fun _ => 1, true, false, 0x8000⟩]

theorem large_seq_changed : Producible largeAck ∧
    (write (writeFresh largeAck).buff largeAck).1 = true ∧
    ¬ ∃ after, parseMessage smallHeap (ByteBuffer.wrap (writeFresh largeAck).written) =
      (.ok (some largeAck), after) := by
  have hproducible : Producible largeAck := by
    intro link hlink
    rw [List.mem_singleton.mp hlink]
    decide
  have hwritten : (write (writeFresh largeAck).buff largeAck).1 = true := by decide +kernel
  refine ⟨hproducible, hwritten, ?_⟩
  rintro ⟨after', heq⟩
  obtain ⟨body, after, hbody, hparse, -⟩ :=
    parse_received smallHeap (writeFresh largeAck) hproducible hwritten
  rw [hparse] at heq
  have hsame := Option.some.inj (Except.ok.inj (Prod.mk.inj heq).1)
  obtain ⟨-, hsmall⟩ := (received_eq_iff smallHeap hproducible hbody).mp hsame
  exact absurd (hsmall _ List.mem_cons_self) (by decide)

end Succinct.MessageRoundTrip
