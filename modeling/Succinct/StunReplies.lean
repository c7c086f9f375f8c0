import Succinct.MessageRoundTrip
import Succinct.StunServer

/-!
What the app reads of a reply of the stun server. The length of the frame is
shifted the wrong way, so that only its low byte is sent: up to 51 addresses
are read as they were written, and a longer list is never read whole. The
table holds every sender that was heard in the last ten seconds as long as no
sender takes the slot of a recent one, which a sender of another port does.
-/
namespace Succinct.StunReplies

open ByteBuffers Messages MessageFrames MessageWrites StunServer

/-- The answered datagrams of the last ten seconds from this port, without
those of the sender itself. -/
def Others (before : List Datagram) (d : Datagram) (ip : Fin 4 → UInt8) : Prop :=
  ip ≠ d.ip ∧ ∃ e ∈ before, e.type ≠ STUN_MSG ∧ e.port = d.port ∧ e.ip = ip ∧ d.now - e.now ≤ 10

/-- The reply is one frame that fits the buffer of the server, and the app
reads all of it as the list of the other senders, each of them once. -/
def Understood (heap : Heap) (before : List Datagram) (d : Datagram)
    (bytes : List UInt8) : Prop :=
  bytes.length ≤ 1024 ∧ ∃ (ips : List (Fin 4 → UInt8)) (after : ByteBuffer),
    parseMessage heap (ByteBuffer.wrap bytes) =
      (.ok (some (.stun (ips.map InetAddress.inet4))), after) ∧
    after.remaining = 0 ∧ ips.Nodup ∧ ∀ ip, ip ∈ ips ↔ Others before d ip

def Readable (heard : List Heard) (d : Datagram) : Prop :=
  (others d.addr d.now heard).length ≤ 51 ∧
    ∀ h ∈ others d.addr d.now heard, h.addr.family = AF_INET

/-- A sender that has no slot takes none of a sender heard in the last ten seconds. -/
def Keeps (heard : List Heard) (d : Datagram) : Prop :=
  (∀ h ∈ heard, same d.addr h = false) →
    ∀ h ∈ spare d.addr d.now heard, h.addr.family = AF_INET → 10 < d.now - h.time

def Clean : List Heard → List Datagram → Prop
  | _, [] => True
  | heard, d :: rest =>
    (d.type ≠ STUN_MSG → Readable heard d ∧ Keeps heard d) ∧ Clean (receive heard d).1 rest

section Frames

variable (heap : Heap)

theorem length_entries (ips : List (Fin 4 → UInt8)) :
    (ips.flatMap entry).length = 5 * ips.length := by
  induction ips with
  | nil => rfl
  | cons ip rest ih =>
    rw [List.flatMap_cons, List.length_append, ih, entry, List.length_cons, List.length_ofFn,
      List.length_cons]
    omega

theorem entries_written (room : ℕ) (ips : List (Fin 4 → UInt8)) (out : List UInt8)
    (hroom : out.length + (ips.flatMap entry).length ≤ room) :
    (ips.map InetAddress.inet4).foldlM (putAddress room) out =
      some (out ++ ips.flatMap entry) := by
  induction ips generalizing out with
  | nil => simp
  | cons ip rest ih =>
    rw [List.flatMap_cons, List.length_append] at hroom
    have hentry : (entry ip).length = 5 := by simp [entry]
    have haddress : putAddress room out (InetAddress.inet4 ip) = some (out ++ entry ip) := by
      have hlong : longBytes 9 ((List.ofFn ip).length : BitVec 64).toNat = [4] := by
        rw [List.length_ofFn]
        rfl
      have hfirst : putLong room (List.ofFn ip).length out = some (out ++ [4]) := by
        rw [putLong, hlong, put, if_pos (by rw [List.length_singleton]; omega)]
      have hrest : put room (List.ofFn ip) (out ++ [4]) = some (out ++ [4] ++ List.ofFn ip) :=
        if_pos (by rw [List.length_append, List.length_ofFn, List.length_singleton]; omega)
      have hbind : putAddress room out (InetAddress.inet4 ip) =
          (putLong room (List.ofFn ip).length out).bind (put room (List.ofFn ip)) := rfl
      rw [hbind, hfirst, Option.bind_some, hrest, entry, List.append_assoc, List.singleton_append]
    rw [List.map_cons, List.foldlM_cons, haddress, List.flatMap_cons, ← List.append_assoc]
    exact ih _ (by rw [List.length_append]; omega)

theorem create_entries (ips : List (Fin 4 → UInt8)) :
    create heap .stunMessage (ips.flatMap entry) =
      (.ok (.stun (ips.map InetAddress.inet4)), []) := by
  have hwritten := entries_written (ips.flatMap entry).length ips [] (by simp)
  rw [List.nil_append] at hwritten
  obtain ⟨tail, htail, hread⟩ := @creates_addresses heap _ _ _ _ hwritten
  rw [List.nil_append] at htail
  have hreceived : (ips.map InetAddress.inet4).map InetAddress.received =
      ips.map InetAddress.inet4 := by
    rw [List.map_map]
    apply List.map_congr_left
    intro ip _
    exact MessageRoundTrip.address_received (.inet4 ip) (fun addr hno => by cases hno)
  subst htail
  have hcreate := hread ((ips.flatMap entry).length + 1) [] (Nat.lt_succ_self _)
  rw [hreceived, List.nil_append] at hcreate
  exact hcreate

def frame (ips : List (Fin 4 → UInt8)) : List UInt8 :=
  STUN_MSG :: UInt8.ofNat (((ips.flatMap entry).length <<< 8) &&& 0xff) ::
    UInt8.ofNat ((ips.flatMap entry).length &&& 0xff) :: ips.flatMap entry

theorem length_frame (ips : List (Fin 4 → UInt8)) : (frame ips).length = 5 * ips.length + 3 := by
  rw [frame, List.length_cons, List.length_cons, List.length_cons, length_entries]

/-- Only the low byte of the length is sent. -/
theorem frameLength_frame (ips : List (Fin 4 → UInt8)) :
    frameLength (frame ips) = 3 + 5 * ips.length % 0x100 := by
  have hhigh : (5 * ips.length) <<< 8 &&& 0xff = 0 := by
    rw [Nat.shiftLeft_eq]
    exact (Nat.and_two_pow_sub_one_eq_mod _ 8).trans (Nat.mul_mod_left _ _)
  have hlow : 5 * ips.length &&& 0xff = 5 * ips.length % 0x100 :=
    Nat.and_two_pow_sub_one_eq_mod _ 8
  have htwo : ((frame ips).drop 1).take 2 = [0, UInt8.ofNat (5 * ips.length % 0x100)] := by
    rw [frame, length_entries, hhigh, hlow]
    rfl
  have hmod : (UInt8.ofNat (5 * ips.length % 0x100)).toNat = 5 * ips.length % 0x100 := by
    rw [UInt8.toNat_ofNat']
    exact Nat.mod_mod _ _
  have hvalue : ofBigEndian [0, UInt8.ofNat (5 * ips.length % 0x100)] =
      0 * 256 + (UInt8.ofNat (5 * ips.length % 0x100)).toNat := rfl
  rw [frameLength, htwo, hvalue, hmod]
  omega

theorem slice_wrap (bytes : List UInt8) : (ByteBuffer.wrap bytes).slice = bytes :=
  List.take_length

/-- The parser takes the frame for the low byte of its length. -/
theorem parse_frame_taken (ips : List (Fin 4 → UInt8)) :
    ∃ after, parseMessage heap (ByteBuffer.wrap (frame ips)) =
        (caught (create heap .stunMessage
          ((ips.flatMap entry).take (5 * ips.length % 0x100))).1, after) ∧
      after.remaining = 5 * ips.length + 3 - (3 + 5 * ips.length % 0x100 -
        (create heap .stunMessage
          ((ips.flatMap entry).take (5 * ips.length % 0x100))).2.length) := by
  have hlength := length_frame ips
  have hframe := frameLength_frame ips
  have hremaining : (ByteBuffer.wrap (frame ips)).remaining = 5 * ips.length + 3 := hlength
  have hbody : frameBody (frame ips) = (ips.flatMap entry).take (5 * ips.length % 0x100) := by
    rw [frameBody, hframe, Nat.add_sub_cancel_left]
    rfl
  have hfirst : ((frame ips).getD 0 0).toNat < types.length := by
    change 8 < 9
    omega
  have htype : frameType (frame ips) = .stunMessage := rfl
  obtain ⟨after, hparse, hbytes, hlimit, hposition⟩ := parseMessage_whole heap
    (ByteBuffer.wrap (frame ips)) (by omega) (by rwa [slice_wrap])
    (by rw [slice_wrap]; omega) (by rw [slice_wrap]; omega)
  rw [slice_wrap, htype, hbody] at hparse hposition
  refine ⟨after, hparse, ?_⟩
  have hend : after.limit = 5 * ips.length + 3 := hlimit.trans hlength
  have hstart : (ByteBuffer.wrap (frame ips)).position = 0 := rfl
  rw [ByteBuffer.remaining, hend, hposition, hframe, hstart, Nat.zero_add]

theorem parse_frame (ips : List (Fin 4 → UInt8)) (hfew : ips.length ≤ 51) :
    ∃ after, parseMessage heap (ByteBuffer.wrap (frame ips)) =
        (.ok (some (.stun (ips.map InetAddress.inet4))), after) ∧ after.remaining = 0 := by
  obtain ⟨after, hparse, hremaining⟩ := parse_frame_taken heap ips
  have hall : (ips.flatMap entry).take (5 * ips.length % 0x100) = ips.flatMap entry := by
    rw [Nat.mod_eq_of_lt (by omega), ← length_entries, List.take_length]
  rw [hall, create_entries] at hparse hremaining
  refine ⟨after, hparse, ?_⟩
  rw [hremaining, List.length_nil]
  omega

theorem parse_frame_long (ips : List (Fin 4 → UInt8)) (hmany : 51 < ips.length)
    {r : Except JavaException (Option Message)} {after : ByteBuffer}
    (hparse : parseMessage heap (ByteBuffer.wrap (frame ips)) = (r, after)) :
    after.remaining ≠ 0 := by
  obtain ⟨after', hparse', hremaining⟩ := parse_frame_taken heap ips
  rw [hparse'] at hparse
  rw [← (Prod.mk.inj hparse).2, hremaining]
  omega

end Frames

section Table

structure Tracks (before : List Datagram) (now : ℤ) (heard : List Heard) : Prop where
  size : heard.length = STUN_ADDRS
  slots : ∀ h ∈ heard, h = unused ∨ ∃ e ∈ before, e.type ≠ STUN_MSG ∧ h = ⟨e.now, e.addr⟩
  latest : ∀ h ∈ heard, ∀ e ∈ before, e.type ≠ STUN_MSG → h.addr = e.addr → e.now ≤ h.time
  apart : ∀ (i j : ℕ) (h g : Heard), heard[i]? = some h → heard[j]? = some g →
    h.addr = g.addr → h.addr.family = AF_INET → i = j
  kept : ∀ e ∈ before, e.type ≠ STUN_MSG → (∃ h ∈ heard, h.addr = e.addr) ∨ 10 < now - e.now

theorem tracks_new (now : ℤ) : Tracks [] now newHeard where
  size := List.length_replicate
  slots h hh := Or.inl (List.mem_replicate.mp hh).2
  latest _ _ e he := absurd he List.not_mem_nil
  apart i j h g hi hj haddr hfamily := by
    have hunused : h = unused := (List.mem_replicate.mp (List.mem_of_getElem? hi)).2
    rw [hunused] at hfamily
    exact absurd hfamily (by decide)
  kept e he := absurd he List.not_mem_nil

theorem Tracks.later {before : List Datagram} {now now' : ℤ} {heard : List Heard}
    (h : Tracks before now heard) (hnow : now ≤ now') : Tracks before now' heard :=
  { h with kept := fun e he ht => (h.kept e he ht).imp_right fun hold => by omega }

theorem same_iff {d : Datagram} {h : Heard} : same d.addr h = true ↔ h.addr = d.addr := by
  obtain ⟨time, family, port, ip⟩ := h
  unfold same Datagram.addr
  rw [decide_eq_true_eq]
  simp only [SocketAddress.mk.injEq, true_and]
  constructor
  · rintro ⟨h1, h2, h3⟩
    exact ⟨h1.symm, h2.symm, h3.symm⟩
  · rintro ⟨h1, h2, h3⟩
    exact ⟨h1.symm, h2.symm, h3.symm⟩

theorem recent_iff {d : Datagram} {h : Heard} :
    recent d.addr d.now h = true ↔ d.port = h.addr.port ∧ d.now - h.time ≤ 10 := by
  rw [recent, decide_eq_true_eq]
  rfl

theorem mem_others {d : Datagram} {heard : List Heard} {h : Heard} :
    h ∈ others d.addr d.now heard ↔
      h ∈ heard ∧ h.addr ≠ d.addr ∧ d.port = h.addr.port ∧ d.now - h.time ≤ 10 := by
  rw [others, List.mem_filter, Bool.and_eq_true, recent_iff, Bool.not_eq_true',
    ← Bool.not_eq_true, same_iff]

/-- A datagram that is not answered changes nothing. -/
theorem Tracks.ignored {before : List Datagram} {d : Datagram} {now : ℤ} {heard : List Heard}
    (h : Tracks before now heard) (hd : d.type = STUN_MSG) :
    Tracks (before ++ [d]) now heard := by
  have hbefore : ∀ e ∈ before ++ [d], e.type ≠ STUN_MSG → e ∈ before := by
    intro e he ht
    rcases List.mem_append.mp he with he | he
    · exact he
    · rw [List.mem_singleton.mp he] at ht
      exact absurd hd ht
  refine ⟨h.size, ?_, ?_, h.apart, ?_⟩
  · intro g hg
    refine (h.slots g hg).imp_right ?_
    rintro ⟨e, he, ht, heq⟩
    exact ⟨e, List.mem_append_left _ he, ht, heq⟩
  · intro g hg e he ht
    exact h.latest g hg e (hbefore e he ht) ht
  · intro e he ht
    exact h.kept e (hbefore e he ht) ht

/-- The slot for the sender, and that no recent sender loses its slot to it. -/
theorem stored_slot {before : List Datagram} {d : Datagram} {heard : List Heard}
    (h : Tracks before d.now heard) (hread : Readable heard d) (hkeeps : Keeps heard d)
    {found : Option ℕ} (hfound : FoundAfter d.addr d.now heard found) :
    ∃ i g, found = some i ∧ heard[i]? = some g ∧
      (∀ (j : ℕ) (f : Heard), heard[j]? = some f → f.addr = d.addr → i = j) ∧
      (g.addr = d.addr ∨ g.addr.family ≠ AF_INET ∨ 10 < d.now - g.time) := by
  cases found with
  | none =>
    -- a table full of other recent senders is longer than any list that is read
    have hall : others d.addr d.now heard = heard := by
      rw [others, List.filter_eq_self]
      intro g hg
      simp [(hfound g hg).1, (hfound g hg).2]
    have hsize := h.size
    have hfew := hread.1
    rw [hall, hsize] at hfew
    exact absurd hfew (by decide)
  | some i =>
    obtain ⟨g, hg, hcases⟩ := hfound
    refine ⟨i, g, rfl, hg, ?_, ?_⟩
    · intro j f hf haddr
      rcases hcases with hsame | ⟨hnone, -⟩
      · rw [same_iff] at hsame
        exact h.apart i j g f hg hf (hsame.trans haddr.symm) (by rw [hsame]; rfl)
      · have hno := hnone f (List.mem_of_getElem? hf)
        rw [← Bool.not_eq_true, same_iff] at hno
        exact absurd haddr hno
    · rcases hcases with hsame | ⟨hnone, hspare⟩
      · exact Or.inl (same_iff.mp hsame)
      · right
        by_cases hfamily : g.addr.family = AF_INET
        · exact Or.inr (hkeeps hnone g hspare hfamily)
        · exact Or.inl hfamily

/-- A slot of the table after a store. -/
theorem slot_cases {heard : List Heard} {i j : ℕ} {g new f : Heard} (hg : heard[i]? = some g)
    (hf : (heard.set i new)[j]? = some f) : (j = i ∧ f = new) ∨ (j ≠ i ∧ heard[j]? = some f) := by
  have hlt := (List.getElem?_eq_some_iff.mp hg).1
  rw [List.getElem?_set] at hf
  by_cases hij : i = j
  · rw [if_pos hij, if_pos hlt] at hf
    exact Or.inl ⟨hij.symm, (Option.some.inj hf).symm⟩
  · rw [if_neg hij] at hf
    exact Or.inr ⟨Ne.symm hij, hf⟩

/-- Who is still heard after a store into a slot that no recent sender loses. -/
theorem Tracks.kept_stored {before : List Datagram} {d : Datagram} {heard : List Heard}
    (h : Tracks before d.now heard) {i : ℕ} {g : Heard} (hg : heard[i]? = some g)
    (hlost : g.addr = d.addr ∨ g.addr.family ≠ AF_INET ∨ 10 < d.now - g.time)
    {e : Datagram} (he : e ∈ before) (ht : e.type ≠ STUN_MSG) :
    (∃ f ∈ heard.set i ⟨d.now, d.addr⟩, f.addr = e.addr) ∨ 10 < d.now - e.now := by
  have hlt := (List.getElem?_eq_some_iff.mp hg).1
  rcases h.kept e he ht with ⟨f, hf, haddr⟩ | hold
  · obtain ⟨j, hj⟩ := List.getElem?_of_mem hf
    by_cases hij : j = i
    · subst hij
      rw [hg] at hj
      obtain rfl := Option.some.inj hj
      rcases hlost with hsame | hempty | hold
      · exact Or.inl ⟨_, List.mem_set hlt _, hsame.symm.trans haddr⟩
      · rw [haddr] at hempty
        exact absurd rfl hempty
      · have hlatest := h.latest g hf e he ht haddr
        exact Or.inr (by omega)
    · refine Or.inl ⟨f, List.mem_of_getElem? (i := j) ?_, haddr⟩
      rw [List.getElem?_set_ne (Ne.symm hij)]
      exact hj
  · exact Or.inr hold

theorem Tracks.answered {before : List Datagram} {d : Datagram} {heard : List Heard}
    (h : Tracks before d.now heard) (hd : d.type ≠ STUN_MSG) (hread : Readable heard d)
    (hkeeps : Keeps heard d) (htimes : ∀ e ∈ before, e.now ≤ d.now) :
    Tracks (before ++ [d]) d.now (receive heard d).1 := by
  obtain ⟨found, hfound, hreceive⟩ := receive_spec heard d hd
  obtain ⟨i, g, rfl, hg, honly, hlost⟩ := stored_slot h hread hkeeps hfound
  rw [hreceive]
  change Tracks (before ++ [d]) d.now (heard.set i ⟨d.now, d.addr⟩)
  refine ⟨by rw [List.length_set, h.size], ?_, ?_, ?_, ?_⟩
  · intro f hf
    obtain ⟨j, hj⟩ := List.getElem?_of_mem hf
    rcases slot_cases hg hj with ⟨-, rfl⟩ | ⟨-, hold⟩
    · exact Or.inr ⟨d, by simp, hd, rfl⟩
    · refine (h.slots f (List.mem_of_getElem? hold)).imp_right ?_
      rintro ⟨e, he, ht, heq⟩
      exact ⟨e, List.mem_append_left _ he, ht, heq⟩
  · intro f hf e he ht haddr
    obtain ⟨j, hj⟩ := List.getElem?_of_mem hf
    rcases slot_cases hg hj with ⟨-, rfl⟩ | ⟨hne, hold⟩
    · rcases List.mem_append.mp he with he | he
      · exact htimes e he
      · rw [List.mem_singleton.mp he]
    · rcases List.mem_append.mp he with he | he
      · exact h.latest f (List.mem_of_getElem? hold) e he ht haddr
      · rw [List.mem_singleton.mp he] at haddr
        exact absurd (honly j f hold haddr).symm hne
  · intro j k f f' hj hk haddr hfamily
    rcases slot_cases hg hj with ⟨rfl, rfl⟩ | ⟨hne, hold⟩
    · rcases slot_cases hg hk with ⟨rfl, -⟩ | ⟨hne', hold'⟩
      · rfl
      · exact honly k f' hold' haddr.symm
    · rcases slot_cases hg hk with ⟨rfl, rfl⟩ | ⟨hne', hold'⟩
      · exact (honly j f hold haddr).symm
      · exact h.apart j k f f' hold hold' haddr hfamily
  · intro e he ht
    rcases List.mem_append.mp he with he | he
    · exact h.kept_stored hg hlost he ht
    · rw [List.mem_singleton.mp he]
      exact Or.inl ⟨_, List.mem_set (List.getElem?_eq_some_iff.mp hg).1 _, rfl⟩

theorem clean_snoc (heard : List Heard) (before : List Datagram) (d : Datagram) :
    Clean heard (before ++ [d]) ↔ Clean heard before ∧
      (d.type ≠ STUN_MSG → Readable (run heard before) d ∧ Keeps (run heard before) d) := by
  induction before generalizing heard with
  | nil => simp [Clean, run]
  | cons e rest ih =>
    rw [List.cons_append, Clean, Clean, ih, and_assoc]
    rfl

theorem run_snoc (heard : List Heard) (before : List Datagram) (d : Datagram) :
    run heard (before ++ [d]) = (receive (run heard before) d).1 := by
  rw [run, List.foldl_append]
  rfl

/-- The induction is on the datagrams from the last one: each finds the table
as the ones before it left it. -/
theorem tracks_run (before : List Datagram) (hordered : before.Pairwise fun e f => e.now ≤ f.now)
    (hclean : Clean newHeard before) (now : ℤ) (hnow : ∀ e ∈ before, e.now ≤ now) :
    Tracks before now (run newHeard before) := by
  induction before using List.reverseRecOn generalizing now with
  | nil => exact tracks_new now
  | append_singleton before d ih =>
    rw [List.pairwise_append] at hordered
    obtain ⟨hbefore, -, hlast⟩ := hordered
    rw [clean_snoc] at hclean
    have htimes : ∀ e ∈ before, e.now ≤ d.now := fun e he => hlast e he d List.mem_cons_self
    have hprev := ih hbefore hclean.1 d.now htimes
    have hd : d.now ≤ now := hnow d (by simp)
    rw [run_snoc]
    by_cases hstun : d.type = STUN_MSG
    · rw [receive, if_pos hstun]
      exact (hprev.ignored hstun).later hd
    · obtain ⟨hread, hkeeps⟩ := hclean.2 hstun
      exact (hprev.answered hstun hread hkeeps htimes).later hd

end Table

section Replies

variable {before : List Datagram} {d : Datagram} {heard : List Heard}

/-- Every other sender that is recent has a slot that is sent. -/
theorem others_of_recent (h : Tracks before d.now heard) {ip : Fin 4 → UInt8}
    (hip : Others before d ip) :
    ∃ f ∈ others d.addr d.now heard, f.addr.family = AF_INET ∧ f.addr.addr = ip := by
  obtain ⟨hne, e, he, ht, hport, rfl, hage⟩ := hip
  rcases h.kept e he ht with ⟨f, hf, haddr⟩ | hold
  · have hlatest := h.latest f hf e he ht haddr
    refine ⟨f, mem_others.mpr ⟨hf, ?_, ?_, by omega⟩, by rw [haddr]; rfl, by rw [haddr]; rfl⟩
    · intro hsame
      rw [haddr] at hsame
      exact hne (congrArg SocketAddress.addr hsame)
    · rw [haddr]
      exact hport.symm
  · omega

theorem recent_of_others (h : Tracks before d.now heard) {f : Heard}
    (hf : f ∈ others d.addr d.now heard) (hfamily : f.addr.family = AF_INET) :
    Others before d f.addr.addr := by
  obtain ⟨hmem, hne, hport, hage⟩ := mem_others.mp hf
  rcases h.slots f hmem with rfl | ⟨e, he, ht, rfl⟩
  · exact absurd hfamily (by decide)
  · refine ⟨?_, e, he, ht, hport.symm, rfl, hage⟩
    intro hip
    apply hne
    change (⟨AF_INET, e.port, e.ip⟩ : SocketAddress) = ⟨AF_INET, d.port, d.ip⟩
    rw [SocketAddress.mk.injEq]
    exact ⟨rfl, hport.symm, hip⟩

theorem others_apart (h : Tracks before d.now heard) (hread : Readable heard d) :
    ((others d.addr d.now heard).map fun f => f.addr.addr).Nodup := by
  have hheard : heard.Pairwise fun f g => f.addr.family = AF_INET → f.addr ≠ g.addr := by
    rw [List.pairwise_iff_getElem]
    intro i j hi hj hij hfamily haddr
    have heq := h.apart i j heard[i] heard[j] (List.getElem?_eq_getElem hi)
      (List.getElem?_eq_getElem hj) haddr hfamily
    omega
  rw [List.Nodup, List.pairwise_map]
  refine (hheard.filter _).imp_of_mem ?_
  intro f g hf hg hapart hip
  have hfamily := hread.2 f hf
  obtain ⟨-, -, hport, -⟩ := mem_others.mp hf
  obtain ⟨-, -, hport', -⟩ := mem_others.mp hg
  apply hapart hfamily
  have hfamily' := hread.2 g hg
  obtain ⟨_, family, port, ip⟩ := f
  obtain ⟨_, family', port', ip'⟩ := g
  simp only at hfamily hfamily' hport hport' hip
  rw [SocketAddress.mk.injEq]
  exact ⟨hfamily.trans hfamily'.symm, hport.symm.trans hport', hip⟩

def listed (heard : List Heard) (d : Datagram) : List (Fin 4 → UInt8) :=
  (others d.addr d.now heard).map fun h => h.addr.addr

theorem receive_reply (hd : d.type ≠ STUN_MSG) :
    (receive heard d).2 = if listed heard d = [] then none
      else some (frame (listed heard d)) := by
  obtain ⟨found, -, hreceive⟩ := receive_spec heard d hd
  have hbody : ((others d.addr d.now heard).flatMap fun h => entry h.addr.addr) =
      (listed heard d).flatMap entry := by
    rw [listed, List.flatMap_map]
  rw [hreceive, hbody]
  change reply ((listed heard d).flatMap entry) = _
  rw [reply, length_entries]
  by_cases hnone : listed heard d = []
  · rw [if_pos hnone, hnone]
    rfl
  · have hpos := List.length_pos_iff.mpr hnone
    rw [if_neg hnone, if_pos (by omega), frame, length_entries]

theorem understood_of_readable (heap : Heap) (h : Tracks before d.now heard)
    (hread : Readable heard d) : Understood heap before d (frame (listed heard d)) := by
  have hlength : (listed heard d).length = (others d.addr d.now heard).length := List.length_map _
  have hfew := hread.1
  obtain ⟨after, hparse, hremaining⟩ := parse_frame heap (listed heard d) (by omega)
  refine ⟨?_, listed heard d, after, hparse, hremaining, others_apart h hread, ?_⟩
  · rw [length_frame]
    omega
  · intro ip
    constructor
    · intro hip
      obtain ⟨f, hf, rfl⟩ := List.mem_map.mp hip
      exact recent_of_others h hf (hread.2 f hf)
    · intro hip
      obtain ⟨f, hf, -, rfl⟩ := others_of_recent h hip
      exact List.mem_map_of_mem hf

/-- A reply that is understood carries what it should. -/
theorem Understood.carries {heap : Heap} {ips : List (Fin 4 → UInt8)}
    (hsent : Understood heap before d (frame ips)) :
    ips.length ≤ 51 ∧ ips.Nodup ∧ ∀ ip, ip ∈ ips ↔ Others before d ip := by
  obtain ⟨-, ips', after, hparse, hremaining, hnodup, hips⟩ := hsent
  have hfew : ips.length ≤ 51 := by
    by_contra hmany
    exact parse_frame_long heap _ (by omega) hparse hremaining
  obtain ⟨after', hparse', -⟩ := parse_frame heap ips hfew
  rw [hparse'] at hparse
  have hmap : ips.map InetAddress.inet4 = ips'.map InetAddress.inet4 := by
    simpa using (Prod.mk.inj hparse).1
  have hsame : ips = ips' :=
    List.map_injective_iff.mpr (fun a b hab => InetAddress.inet4.inj hab) hmap
  rw [hsame]
  rw [hsame] at hfew
  exact ⟨hfew, hnodup, hips⟩

/-- A slot that was never used stands for an address that nobody sent from. -/
theorem readable_of_understood (heap : Heap) (h : Tracks before d.now heard)
    (hsent : Understood heap before d (frame (listed heard d))) : Readable heard d := by
  obtain ⟨hfew, hnodup, hips⟩ := hsent.carries
  refine ⟨by rwa [listed, List.length_map] at hfew, ?_⟩
  intro f hf
  obtain ⟨hmem, -⟩ := mem_others.mp hf
  rcases h.slots f hmem with rfl | ⟨e, -, -, rfl⟩
  · have hip : unused.addr.addr ∈ listed heard d := List.mem_map_of_mem hf
    obtain ⟨g, hg, hfamily, haddr⟩ := others_of_recent h ((hips _).mp hip)
    have hsame : g = unused := List.inj_on_of_nodup_map hnodup hg hf haddr
    rwa [hsame] at hfamily
  · rfl

/-- In a run whose datagrams all find the table clean, the next reply is
understood exactly when it lists up to 51 slots, all of them of senders. -/
theorem replies_understood_iff (heap : Heap) (before : List Datagram) (d : Datagram)
    (hordered : (before ++ [d]).Pairwise fun e f => e.now ≤ f.now)
    (hclean : Clean newHeard before) :
    (∀ bytes, (receive (run newHeard before) d).2 = some bytes → Understood heap before d bytes) ↔
      (d.type ≠ STUN_MSG → Readable (run newHeard before) d) := by
  rw [List.pairwise_append] at hordered
  obtain ⟨hbefore, -, hlast⟩ := hordered
  have htracks := tracks_run before hbefore hclean d.now
    (fun e he => hlast e he d List.mem_cons_self)
  by_cases hstun : d.type = STUN_MSG
  · refine iff_of_true ?_ (fun hno => absurd hstun hno)
    intro bytes hbytes
    rw [receive, if_pos hstun] at hbytes
    exact absurd hbytes (by simp)
  · rw [receive_reply hstun]
    constructor
    · intro hall _
      by_cases hnone : listed (run newHeard before) d = []
      · rw [listed, List.map_eq_nil_iff] at hnone
        rw [Readable, hnone]
        exact ⟨by simp, fun h hh => absurd hh List.not_mem_nil⟩
      · exact readable_of_understood heap htracks (hall _ (if_neg hnone))
    · intro hread bytes hbytes
      split at hbytes
      · exact absurd hbytes (by simp)
      · rw [← Option.some.inj hbytes]
        exact understood_of_readable heap htracks (hread hstun)

def hello (port : UInt16) (host : UInt8) (now : ℤ) : Datagram := ⟨0, port, ![10, 0, 0, host], now⟩

instance (heard : List Heard) (d : Datagram) : Decidable (Readable heard d) :=
  inferInstanceAs (Decidable (_ ∧ _))

instance (heard : List Heard) (d : Datagram) : Decidable (Keeps heard d) :=
  inferInstanceAs (Decidable (_ → _))

/-- Three hosts of one port within six seconds. -/
theorem replies_understood_three : Understood smallHeap
    [hello 4043 1 100, hello 4043 2 101] (hello 4043 3 106)
    (frame [![10, 0, 0, 1], ![10, 0, 0, 2]]) := by
  have hclean : Clean newHeard [hello 4043 1 100, hello 4043 2 101] :=
    ⟨fun _ => ⟨by decide +kernel, by decide +kernel⟩,
      fun _ => ⟨by decide +kernel, by decide +kernel⟩, trivial⟩
  apply (replies_understood_iff smallHeap [hello 4043 1 100, hello 4043 2 101] (hello 4043 3 106)
    (by simp [hello]) hclean).mpr
  · intro _
    decide +kernel
  · rw [receive_reply (by decide)]
    decide +kernel

def crowd : List Datagram := (List.range 52).map fun i => hello 4043 (UInt8.ofNat i) 100

/-- The third host has another port and takes the slot of the first one, so
that the last host is told of the second one only. A crowd of 52 is told to a
host in a frame that is not read whole. -/
theorem other_port_forgets :
    ((receive (run newHeard [hello 4043 1 100, hello 4043 2 100, hello 4044 3 101])
        (hello 4043 4 102)).2 = some (frame [![10, 0, 0, 2]]) ∧
      ∀ heap, ¬ Understood heap [hello 4043 1 100, hello 4043 2 100, hello 4044 3 101]
        (hello 4043 4 102) (frame [![10, 0, 0, 2]])) ∧
    ∃ bytes, (receive (run newHeard crowd) (hello 4043 52 100)).2 = some bytes ∧
      ∀ heap, ¬ Understood heap crowd (hello 4043 52 100) bytes := by
  refine ⟨⟨?_, ?_⟩, ?_⟩
  · rw [receive_reply (by decide)]
    decide +kernel
  · intro heap hsent
    obtain ⟨-, -, hips⟩ := hsent.carries
    have hfirst : ![10, 0, 0, 1] ∈ [(![10, 0, 0, 2] : Fin 4 → UInt8)] :=
      (hips _).mpr ⟨by decide, hello 4043 1 100, by simp, by decide, rfl, rfl, by decide⟩
    revert hfirst
    decide
  · have hmany : (listed (run newHeard crowd) (hello 4043 52 100)).length = 52 := by
      decide +kernel
    refine ⟨frame (listed (run newHeard crowd) (hello 4043 52 100)), ?_, ?_⟩
    · rw [receive_reply (by decide), if_neg (fun hnone => by rw [hnone] at hmany; cases hmany)]
    · intro heap hsent
      have hfew := hsent.carries.1
      omega

end Replies

end Succinct.StunReplies
