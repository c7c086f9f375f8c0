import Succinct.MessageQueue
import Succinct.FragmentLayouts

/-!
The queue writes the fragments of the plan: whatever messages are fragmented
and wherever fragments are ended, the stored bytes are those of the planned
layouts, and the open fragment is in the buffer.
-/
namespace Succinct.Fragmentation

open ByteBuffers MessageQueue FragmentLayouts

def teamBytes (q : Queue) : List UInt8 := List.ofFn q.teamId

/-- The stored fragments are the given ones and the next number is the given
one; the buffer is whole. -/
structure Stored (q : Queue) (closed : List Layout) (next : ℕ) : Prop where
  fragments : q.fragments = encode (teamBytes q) closed
  seq : q.nextFragmentSeq = UInt32.ofNat next
  limit : q.fragmentBuff.limit = 204
  capacity : q.fragmentBuff.capacity = 204

structure Holds (q : Queue) (closed : List Layout) (content : List UInt8) : Prop where
  stored : Stored q closed (closed.length + 1)
  position : q.fragmentBuff.position = 4 + content.length
  written : q.fragmentBuff.written.drop 4 = content

def nextBytes (q : Queue) (closed : List Layout) (l : Layout) : List UInt8 :=
  l.bytes (teamBytes q) (UInt32.ofNat closed.length)

def Refines (q : Queue) (p : Plan) : Prop :=
  match p.current with
  | none => Stored q p.closed p.closed.length ∧ q.fragmentBuff.position ≤ 4 ∧
      q.fragmentBuff.bytes.take 4 = bigEndian 4 0
  | some l => Holds q p.closed (nextBytes q p.closed l) ∧ l.body.length ≤ 184 ∧
      q.fragmentBuff.bytes.take 4 = bigEndian 4 q.fragmentBuff.position

theorem Refines.fragments {q : Queue} {p : Plan} (h : Refines q p) :
    q.fragments = encode (teamBytes q) p.closed := by
  rw [Refines] at h
  split at h
  · exact h.1.fragments
  · exact h.1.stored.fragments

theorem length_teamBytes (q : Queue) : (teamBytes q).length = 8 := List.length_ofFn

theorem length_nextBytes (q : Queue) (closed : List Layout) (l : Layout) :
    (nextBytes q closed l).length = 13 + l.body.length :=
  length_layout _ (length_teamBytes q) _ l

theorem encode_snoc (team : List UInt8) (ls : List Layout) (l : Layout) :
    encode team (ls ++ [l]) = encode team ls ++ [l.bytes team (UInt32.ofNat ls.length)] := by
  rw [encode, List.mapIdx_append]
  simp [encode]

/-- An open fragment is stored. -/
theorem endFragment_holds {q : Queue} {closed : List Layout} {l : Layout}
    (h : Holds q closed (nextBytes q closed l)) :
    ∃ q', endFragment q = some (true, q') ∧ q'.teamId = q.teamId ∧
      Refines q' ⟨closed ++ [l], none⟩ := by
  have hlen := length_nextBytes q closed l
  have hpos := h.position
  have hlim := h.stored.limit
  have hopen : ¬ q.fragmentBuff.position ≤ 4 := by omega
  obtain ⟨b0, hset, hbytes0, hpos0, hlim0, -⟩ := q.fragmentBuff.flip.setPosition_spec 4 (by
    change 4 ≤ q.fragmentBuff.position
    omega)
  obtain ⟨b1, hget, hbytes1, -, -, -⟩ := b0.get_spec b0.remaining (Nat.le_refl _)
  have hcap1 : b1.clear.limit = 204 := by
    change b1.bytes.length = 204
    rw [hbytes1, hbytes0]
    exact h.stored.capacity
  obtain ⟨b, hput, hbpos, hblim, hbcap, hbsaved, -⟩ := b1.clear.putIntAt_spec 0 (by omega)
  refine ⟨{ q with fragmentDeadline := NO_DEADLINE
                   fragments := q.fragments ++ [nextBytes q closed l]
                   fragmentBuff := b }, ?_, rfl, ⟨?_, ?_, ?_, ?_⟩, ?_, hbsaved⟩
  · rw [Nat.cast_ofNat] at hset
    rw [endFragment, if_neg hopen, hset]
    have hbytes : (b0.bytes.drop b0.position).take b0.remaining = nextBytes q closed l := by
      rw [← h.written, ByteBuffer.written, List.drop_take, ByteBuffer.remaining,
        hbytes0, hpos0, hlim0]
      rfl
    simp only [Option.bind_eq_bind, Option.bind_some, hget, hbytes, hput]
  · change q.fragments ++ [nextBytes q closed l] = encode (teamBytes q) (closed ++ [l])
    rw [encode_snoc, ← h.stored.fragments]
    rfl
  · change q.nextFragmentSeq = UInt32.ofNat (closed ++ [l]).length
    rw [List.length_append, List.length_singleton]
    exact h.stored.seq
  · change b.limit = 204
    rw [hblim, hcap1]
  · change b.capacity = 204
    rw [hbcap]
    exact hcap1
  · change b.position ≤ 4
    rw [hbpos]
    exact Nat.zero_le 4

theorem endFragment_spec {q : Queue} {p : Plan} (h : Refines q p) :
    ∃ ended q', endFragment q = some (ended, q') ∧ q'.teamId = q.teamId ∧ Refines q' p.flush := by
  obtain ⟨closed, current⟩ := p
  cases current with
  | none =>
    refine ⟨false, q, if_pos h.2.1, rfl, ?_⟩
    have hflush : (⟨closed, none⟩ : Plan).flush = ⟨closed, none⟩ := by
      simp [Plan.flush, Plan.layouts]
    rw [hflush]
    exact h
  | some l =>
    obtain ⟨q', hend, hteam, hq'⟩ := endFragment_holds h.1
    exact ⟨true, q', hend, hteam, hq'⟩

/-- A new fragment is begun. -/
theorem beginFragment_spec {q : Queue} {closed : List Layout} (h : Refines q ⟨closed, none⟩)
    (pieceLen : ℕ) (hpiece : pieceLen ≤ 187) :
    ∃ q', beginFragment q pieceLen = some q' ∧ q'.teamId = q.teamId ∧
      Holds q' closed (teamBytes q ++ bigEndian 4 (UInt32.ofNat closed.length).toNat ++
        [UInt8.ofNat pieceLen]) := by
  obtain ⟨hstored, -, -⟩ := h
  have hcap := hstored.capacity
  change q.fragmentBuff.bytes.length = 204 at hcap
  obtain ⟨b0, hset, hbytes0, hpos0, hlim0, -⟩ := q.fragmentBuff.clear.setPosition_spec 4 (by
    change 4 ≤ q.fragmentBuff.bytes.length
    omega)
  rw [Nat.cast_ofNat] at hset
  have hlim0 : b0.limit = 204 := hlim0.trans hcap
  have hcap0 : b0.capacity = 204 := by
    rw [ByteBuffer.capacity, hbytes0]
    exact hcap
  obtain ⟨b1, hput1, hpos1, hlim1, hcap1, hw1⟩ := b0.put_spec (teamBytes q) (by
    rw [length_teamBytes, ByteBuffer.remaining]
    omega)
  rw [length_teamBytes] at hpos1
  obtain ⟨b2, hput2, hpos2, hlim2, hcap2, hw2⟩ :=
    b1.put_spec (bigEndian 4 q.nextFragmentSeq.toNat) (by
    rw [length_bigEndian, ByteBuffer.remaining]
    omega)
  rw [length_bigEndian] at hpos2
  obtain ⟨b3, hput3, hpos3, hlim3, hcap3, hw3⟩ := b2.put_spec [UInt8.ofNat pieceLen] (by
    rw [List.length_singleton, ByteBuffer.remaining]
    omega)
  rw [List.length_singleton] at hpos3
  obtain ⟨b4, hput4, hpos4, hlim4, hcap4, -, hdrop4⟩ := b3.putIntAt_spec b3.position (by omega)
  refine ⟨{ q with nextFragmentSeq := q.nextFragmentSeq + 1, fragmentDeadline := NO_DEADLINE,
                   fragmentBuff := b4 }, ?_, rfl, ⟨hstored.fragments, ?_, ?_, ?_⟩, ?_, ?_⟩
  · have hbyte : (if (pieceLen : ℤ) > 255 then 255 else (pieceLen : ℤ)).toNat = pieceLen := by
      rw [if_neg (by omega)]
      exact Int.toNat_natCast pieceLen
    rw [beginFragment, hset]
    simp only [Option.bind_eq_bind, Option.bind_some]
    change (b0.put (teamBytes q)).bind _ = _
    rw [hput1, Option.bind_some, ByteBuffer.putInt, hput2, Option.bind_some, hbyte, hput3,
      Option.bind_some, hput4]
    rfl
  · change q.nextFragmentSeq + 1 = _
    rw [hstored.seq]
    exact (UInt32.ofNat_add _ _).symm
  · change b4.limit = 204
    omega
  · change b4.capacity = 204
    omega
  · change b4.position = _
    rw [List.length_append, List.length_append, length_teamBytes, length_bigEndian,
      List.length_singleton]
    omega
  · change b4.written.drop 4 = _
    have hdrop : b4.written.drop 4 = b3.written.drop 4 := by
      rw [ByteBuffer.written, ByteBuffer.written, List.drop_take, List.drop_take, hdrop4, hpos4]
    have hw0 : b0.written.length = 4 := by
      rw [b0.length_written, hpos0]
    rw [hdrop, hw3, hw2, hw1, List.append_assoc, List.append_assoc, List.drop_left' hw0,
      hstored.seq, List.append_assoc]

theorem Holds.deadline {q : Queue} {closed : List Layout} {content : List UInt8}
    (h : Holds q closed content) (deadline : ℤ) :
    Holds (if deadline < q.fragmentDeadline then { q with fragmentDeadline := deadline } else q)
      closed content := by
  split
  · exact ⟨⟨h.stored.fragments, h.stored.seq, h.stored.limit, h.stored.capacity⟩, h.position,
      h.written⟩
  · exact h

theorem Holds.remaining {q : Queue} {closed : List Layout} {content : List UInt8}
    (h : Holds q closed content) : q.fragmentBuff.remaining = 200 - content.length := by
  rw [ByteBuffer.remaining, h.stored.limit, h.position]
  omega

theorem Holds.put {q : Queue} {closed : List Layout} {content : List UInt8}
    (h : Holds q closed content) (src : List UInt8) (hroom : content.length + src.length ≤ 200) :
    ∃ b, q.fragmentBuff.put src = some b ∧
      Holds { q with fragmentBuff := b } closed (content ++ src) := by
  obtain ⟨b, hput, hpos, hlim, hcap, hwritten⟩ := q.fragmentBuff.put_spec src (by
    rw [h.remaining]
    omega)
  refine ⟨b, hput, ⟨h.stored.fragments, h.stored.seq, ?_, ?_⟩, ?_, ?_⟩
  · exact hlim.trans h.stored.limit
  · exact hcap.trans h.stored.capacity
  · change b.position = _
    rw [hpos, h.position, List.length_append]
    omega
  · change b.written.drop 4 = _
    rw [hwritten, List.drop_append_of_le_length, h.written]
    rw [ByteBuffer.length_written, h.position]
    omega

/-- A fragment that got a piece is open or ended, as in the plan. -/
theorem savePiece_spec {q : Queue} {buff : ByteBuffer} {closed : List Layout} {l : Layout}
    (h : Holds { q with fragmentBuff := buff } closed (nextBytes q closed l))
    (hsize : l.body.length ≤ 187) (len : ℤ) (hlen : len ≤ 254) :
    ∃ q', savePiece q buff len = some q' ∧ q'.teamId = q.teamId ∧
    Refines q' (settle closed l) := by
  have hbytes := length_nextBytes q closed l
  have hpos := h.position
  have hlim := h.stored.limit
  change buff.position = _ at hpos
  change buff.limit = _ at hlim
  obtain ⟨b, hput, hbpos, hblim, hbcap, hbsaved, hbdrop⟩ :=
    buff.putIntAt_spec buff.position (by omega)
  have hholds : Holds { q with fragmentBuff := b } closed (nextBytes q closed l) := by
    refine ⟨⟨h.stored.fragments, h.stored.seq, ?_, ?_⟩, ?_, ?_⟩
    · exact hblim.trans hlim
    · exact hbcap.trans h.stored.capacity
    · exact hbpos.trans hpos
    · change b.written.drop 4 = _
      rw [← h.written, ByteBuffer.written, ByteBuffer.written, List.drop_take,
        List.drop_take, hbdrop, hbpos]
  have hremaining := hholds.remaining
  change b.remaining = _ at hremaining
  rw [savePiece, hput]
  simp only [Option.bind_eq_bind, Option.bind_some]
  by_cases hfull : 187 - l.body.length < 3
  · obtain ⟨q', hend, hteam, hq'⟩ := endFragment_holds hholds
    rw [if_pos (Or.inr (by omega)), hend, settle, if_pos hfull]
    exact ⟨q', rfl, hteam, hq'⟩
  · rw [if_neg (by omega), settle, if_neg hfull]
    refine ⟨_, rfl, rfl, hholds, by omega, ?_⟩
    change b.bytes.take 4 = bigEndian 4 b.position
    rw [hbpos]
    exact hbsaved

/-- What is left of a message goes into new fragments. -/
theorem fragmentLoop_rest (deadline : ℤ) (type : UInt8) (bytes : List UInt8)
    (fuel : ℕ) (q : Queue)
    (offset : ℕ) (hfuel : bytes.length - offset < fuel) {p : Plan} (h : Refines q p)
    (hclosed : bytes.drop offset ≠ [] → p.current = none) :
    ∃ q', fragmentLoop deadline type bytes fuel q offset = some q' ∧ q'.teamId = q.teamId ∧
      Refines q' (p.addRest (bytes.drop offset)) := by
  induction fuel generalizing q offset p with
  | zero => omega
  | succ fuel ih =>
    rw [fragmentLoop]
    by_cases hmore : offset < bytes.length
    · have hrest : bytes.drop offset ≠ [] := by
        intro hnil
        have := congrArg List.length hnil
        rw [List.length_drop, List.length_nil] at this
        omega
      obtain ⟨closed, current⟩ := p
      obtain rfl : current = none := hclosed hrest
      have hlen : (if (bytes.length : ℤ) - offset > MTU - HEADER then (MTU : ℤ) - HEADER
          else (bytes.length : ℤ) - offset) = (min (bytes.length - offset) 187 : ℕ) := by
        rw [MTU_eq, HEADER]
        split <;> omega
      have hstart : ¬ (offset : ℤ) = -3 := by omega
      have hchunk : ((bytes.drop offset).take 187).length = min (bytes.length - offset) 187 := by
        rw [List.length_take, List.length_drop]
        omega
      obtain ⟨q1, hbegin, hteam1, hq1⟩ := beginFragment_spec h (min (bytes.length - offset) 187)
        (by omega)
      have hq1' := hq1.deadline deadline
      have hopen : openFragment q offset (min (bytes.length - offset) 187 : ℕ) = some q1 := by
        rw [openFragment, if_pos h.2.1, if_neg hstart, hbegin]
      rw [if_pos (by omega)]
      simp only [hlen, hopen, Option.bind_eq_bind, Option.bind_some]
      generalize hq2 : (if deadline < q1.fragmentDeadline
        then { q1 with fragmentDeadline := deadline }
        else q1) = q2 at hq1'
      have hteam2 : q2.teamId = q.teamId := by
        rw [← hq2, ← hteam1]
        split <;> rfl
      have hteamBytes : teamBytes q = teamBytes q2 := by
        rw [teamBytes, teamBytes, hteam2]
      rw [hteamBytes] at hq1'
      have hheader : (teamBytes q2 ++ bigEndian 4 (UInt32.ofNat closed.length).toNat ++
          [UInt8.ofNat (min (bytes.length - offset) 187)]).length = 13 := by
        rw [List.length_append, List.length_append, length_teamBytes, length_bigEndian,
          List.length_singleton]
      have hremaining := hq1'.remaining
      obtain ⟨b, hput, hb⟩ := hq1'.put ((bytes.drop offset).take 187) (by omega)
      have hcontent : teamBytes q2 ++ bigEndian 4 (UInt32.ofNat closed.length).toNat ++
          [UInt8.ofNat (min (bytes.length - offset) 187)] ++ (bytes.drop offset).take 187 =
          nextBytes q2 closed ⟨(bytes.drop offset).take 187, []⟩ := by
        rw [nextBytes, Layout.bytes, hchunk, Layout.body, List.flatMap_nil, List.append_nil,
          List.append_assoc]
        rfl
      have hrange : q2.fragmentBuff.putRange bytes offset (min (bytes.length - offset) 187 : ℕ) =
          some b := by
        have htake : (bytes.drop offset).take (min (bytes.length - offset) 187) =
            (bytes.drop offset).take 187 := by
          rw [List.take_eq_take_iff, List.length_drop]
          omega
        rw [ByteBuffer.putRange, if_pos (by omega), Int.toNat_natCast, Int.toNat_natCast, ← hput,
          htake]
      rw [hcontent] at hb
      obtain ⟨q3, hsave, hteam3, hq3⟩ := savePiece_spec hb (by
        rw [Layout.body, List.flatMap_nil, List.append_nil]
        change ((bytes.drop offset).take 187).length ≤ 187
        omega) (min (bytes.length - offset) 187 : ℕ) (by omega)
      have hnext : (bytes.drop offset).drop 187 =
        bytes.drop (offset + min (bytes.length - offset) 187) := by
        rw [List.drop_drop]
        by_cases hlong : 187 ≤ bytes.length - offset
        · rw [Nat.min_eq_right hlong]
        · rw [List.drop_eq_nil_of_le (by omega), List.drop_eq_nil_of_le (by omega)]
      obtain ⟨q4, hloop, hteam4, hq4⟩ :=
        ih q3 (offset + min (bytes.length - offset) 187) (by omega)
        hq3 (by
          intro hne
          have hlong : 187 < bytes.length - offset := by
            by_contra hle
            exact hne (List.drop_eq_nil_of_le (by omega))
          rw [settle, if_pos]
          rw [Layout.body, List.flatMap_nil, List.append_nil]
          change 187 - ((bytes.drop offset).take 187).length < 3
          omega)
      refine ⟨q4, ?_, hteam4.trans (hteam3.trans hteam2), ?_⟩
      · rw [if_neg (by omega), putHeader, if_neg hstart, Option.bind_some,
          hrange, Option.bind_some, hsave, Option.bind_some, ← hloop, Nat.cast_add]
      · rw [addRest_ne_nil _ _ hrest, hnext, Plan.layouts, Option.toList_none, List.append_nil]
        exact hq4
    · have hdone : bytes.drop offset = [] := List.drop_eq_nil_of_le (by omega)
      rw [if_neg (by omega), hdone, addRest_nil]
      exact ⟨q, rfl, rfl, h⟩

/-- The fragment of a queue is open, or the empty one is begun. -/
theorem openFragment_spec {q : Queue} {p : Plan} (h : Refines q p) (len : ℤ) :
    ∃ q', openFragment q (-3) len = some q' ∧ q'.teamId = q.teamId ∧
      Holds q' p.closed (nextBytes q p.closed (p.current.getD ⟨[], []⟩)) ∧
      (p.current.getD ⟨[], []⟩).body.length ≤ 184 := by
  obtain ⟨closed, current⟩ := p
  cases current with
  | none =>
    obtain ⟨q', hbegin, hteam, hq'⟩ := beginFragment_spec h 0 (Nat.zero_le _)
    rw [openFragment, if_pos h.2.1, if_pos rfl]
    refine ⟨q', hbegin, hteam, ?_, Nat.zero_le _⟩
    rw [List.append_assoc] at hq'
    rw [Option.getD_none, nextBytes, Layout.bytes, List.append_assoc]
    exact hq'
  | some l =>
    obtain ⟨hholds, hroom, -⟩ := h
    have hpos := hholds.position
    rw [length_nextBytes] at hpos
    rw [openFragment, if_neg (by omega)]
    exact ⟨q, rfl, rfl, hholds, hroom⟩

/-- Fragmenting a message adds it to the plan. -/
theorem fragmentMessage_spec {q : Queue} {p : Plan} (h : Refines q p)
    (deadline : ℤ) (m : Message) :
    ∃ q', fragmentMessage q deadline m.type m.payload = some q' ∧ q'.teamId = q.teamId ∧
      Refines q' (p.add m) := by
  obtain ⟨q1, hopen, hteam1, hq1, hroom⟩ :=
    openFragment_spec h (min (m.payload.length + 3) 187 : ℕ)
  rw [Plan.add]
  generalize p.current.getD ⟨[], []⟩ = l at hq1 hroom
  generalize hn : min m.payload.length (184 - l.body.length) = n
  have hlen1 : (if (m.payload.length : ℤ) - -3 > MTU - HEADER then (MTU : ℤ) - HEADER
      else (m.payload.length : ℤ) - -3) = (min (m.payload.length + 3) 187 : ℕ) := by
    rw [MTU_eq, HEADER]
    split <;> omega
  have hq1' := hq1.deadline deadline
  rw [fragmentMessage, fragmentLoop, if_pos (by omega)]
  simp only [hlen1, hopen, Option.bind_eq_bind, Option.bind_some]
  generalize hq2 : (if deadline < q1.fragmentDeadline
    then { q1 with fragmentDeadline := deadline }
    else q1) = q2 at hq1'
  have hteam2 : q2.teamId = q.teamId := by
    rw [← hq2, ← hteam1]
    split <;> rfl
  have hnext : ∀ l', nextBytes q p.closed l' = nextBytes q2 p.closed l' := by
    intro l'
    rw [nextBytes, nextBytes, teamBytes, teamBytes, hteam2]
  rw [hnext] at hq1'
  have hbytes := length_nextBytes q2 p.closed l
  have hremaining := hq1'.remaining
  have hlen2 : (if ((min (m.payload.length + 3) 187 : ℕ) : ℤ) > q2.fragmentBuff.remaining
      then (q2.fragmentBuff.remaining : ℤ) else (min (m.payload.length + 3) 187 : ℕ)) =
      (n + 3 : ℕ) := by
    rw [hremaining]
    split <;> omega
  obtain ⟨b1, hput1, hb1⟩ := hq1'.put [m.type] (by rw [List.length_singleton]; omega)
  obtain ⟨b2, hput2, hb2⟩ := hb1.put (bigEndian 2 m.payload.length) (by
    rw [List.length_append, List.length_singleton, length_bigEndian]
    omega)
  have htake : (m.payload.take n).length = n := by
    rw [List.length_take]
    omega
  obtain ⟨b3, hput3, hb3⟩ := hb2.put (m.payload.take n) (by
    rw [List.length_append, List.length_append, List.length_singleton, length_bigEndian]
    omega)
  have hcontent : nextBytes q2 p.closed l ++ [m.type] ++ bigEndian 2 m.payload.length ++
      m.payload.take n = nextBytes q2 p.closed
        { l with parts := l.parts ++ [⟨m.type, m.payload.length, m.payload.take n⟩] } := by
    rw [nextBytes, nextBytes, Layout.bytes, Layout.bytes, body_snoc, Part.bytes]
    simp only [List.append_assoc, List.cons_append, List.nil_append]
  have hrange : b2.putRange m.payload 0 n = some b3 := by
    rw [ByteBuffer.putRange, if_pos (by omega), Int.toNat_natCast]
    exact hput3
  rw [hcontent] at hb3
  obtain ⟨q3, hsave, hteam3, hq3⟩ := savePiece_spec (q := q2) hb3 (by
    rw [body_snoc, List.length_append, length_bytes]
    change l.body.length + (3 + (m.payload.take n).length) ≤ 187
    omega) n (by omega)
  obtain ⟨q4, hloop, hteam4, hq4⟩ := fragmentLoop_rest deadline m.type m.payload
    (m.payload.length + 3) q3 n (by omega) hq3 (by
      intro hne
      have hcut : n < m.payload.length := by
        by_contra hle
        exact hne (List.drop_eq_nil_of_le (by omega))
      rw [settle, if_pos]
      rw [body_snoc, List.length_append, length_bytes]
      change 187 - (l.body.length + (3 + (m.payload.take n).length)) < 3
      omega)
  refine ⟨q4, ?_, hteam4.trans (hteam3.trans hteam2), hq4⟩
  have hheader : putHeader q2.fragmentBuff m.type m.payload.length (-3) (n + 3 : ℕ) =
      some (b2, 0, (n : ℤ)) := by
    rw [putHeader, if_pos rfl, hput1]
    simp only [Option.bind_eq_bind, Option.bind_some, ByteBuffer.putShort, hput2]
    rw [Nat.cast_add, Nat.cast_ofNat, Int.add_sub_cancel]
    rfl
  rw [hlen2, hheader]
  simp only [Option.bind_some, hrange, hsave, Int.zero_add, hloop]

inductive Op where
  | message (deadline : ℤ) (m : Message)
  | endFragment

def Op.apply (q : Queue) : Op → Option Queue
  | .message deadline m => fragmentMessage q deadline m.type m.payload
  | .endFragment => (MessageQueue.endFragment q).map Prod.snd

def run : List Op → Queue → Option Queue
  | [], q => some q
  | op :: rest, q => (op.apply q).bind (run rest)

def messagesOf : List Op → List (UInt8 × List UInt8)
  | [] => []
  | .message _ m :: rest => (m.type, m.payload) :: messagesOf rest
  | .endFragment :: rest => messagesOf rest

def Op.plan (p : Plan) : Op → Plan
  | .message _ m => p.add m
  | .endFragment => p.flush

def planOf : List Op → Plan → Plan
  | [], p => p
  | op :: rest, p => planOf rest (op.plan p)

theorem apply_spec {q : Queue} {p : Plan} (h : Refines q p) (op : Op) :
    ∃ q', op.apply q = some q' ∧ q'.teamId = q.teamId ∧ Refines q' (op.plan p) := by
  cases op with
  | message deadline m => exact fragmentMessage_spec h deadline m
  | endFragment =>
    obtain ⟨ended, q', hend, hq'⟩ := endFragment_spec h
    refine ⟨q', ?_, hq'⟩
    rw [Op.apply, hend]
    rfl

/-- A run of the queue follows the plan. -/
theorem run_spec (ops : List Op) {q : Queue} {p : Plan} (h : Refines q p) :
    ∃ q', run ops q = some q' ∧ q'.teamId = q.teamId ∧ Refines q' (planOf ops p) := by
  induction ops generalizing q p with
  | nil => exact ⟨q, rfl, rfl, h⟩
  | cons op rest ih =>
    obtain ⟨q1, happly, hteam1, hq1⟩ := apply_spec h op
    obtain ⟨q2, hrest, hteam2, hq2⟩ := ih hq1
    refine ⟨q2, ?_, hteam2.trans hteam1, hq2⟩
    rw [run, happly, Option.bind_some, hrest]

theorem planOf_tells (ops : List Op) {p : Plan}
    {ms : List (UInt8 × List UInt8)} (h : Tells p ms) :
    Tells (planOf ops p) (ms ++ messagesOf ops) := by
  induction ops generalizing p ms with
  | nil =>
    rw [messagesOf, List.append_nil]
    exact h
  | cons op rest ih =>
    cases op with
    | message deadline m =>
      have hrest := ih (h.add m)
      rw [List.append_assoc] at hrest
      exact hrest
    | endFragment => exact ih h.flush

theorem tells_empty : Tells ⟨[], none⟩ [] := by
  refine ⟨trivial, rfl, ?_, ?_⟩
  · exact fun l hl => absurd hl (by simp)
  · exact fun l hl => absurd hl (by simp)

/-- The queue of a team that has sent nothing yet. -/
theorem newQueue_spec (teamId : PeerId) (now : ℤ) :
    ∃ q, newQueue teamId [] [] now = some q ∧ q.teamId = teamId ∧ Refines q ⟨[], none⟩ := by
  have hlen : (setLength [] (MTU + 4)).length = 204 := by
    rw [MTU_eq]
    rfl
  obtain ⟨b, hput, hpos, hlim, hcap, hsaved, -⟩ :=
    (ByteBuffer.wrap (setLength [] (MTU + 4))).putIntAt_spec 0 (by
      change 4 ≤ (setLength [] (MTU + 4)).length
      omega)
  refine ⟨{ teamId := teamId, fragmentBuff := b, nextFragmentSeq := 0,
            fragmentDeadline := NO_DEADLINE, fragments := [] }, ?_, rfl,
              ⟨rfl, rfl, ?_, ?_⟩, ?_, hsaved⟩
  · simp only [newQueue, seqAfterLast, List.getLast?_nil, Option.bind_eq_bind,
      Option.bind_some, List.length_nil, if_true, hput]
  · exact hlim.trans hlen
  · exact hcap.trans hlen
  · change b.position ≤ 4
    rw [hpos]
    exact Nat.zero_le 4

/-- Whatever messages are fragmented and wherever fragments are ended, the
stored fragments are short, count up, say how far they go on with a message
cut before, and give back the messages in order. -/
theorem fragmentation_lossless (teamId : PeerId) (now : ℤ) (ops : List Op) :
    MTU = 200 ∧ ∃ q0 q ended q', newQueue teamId [] [] now = some q0 ∧ run ops q0 = some q ∧
      endFragment q = some (ended, q') ∧
      (∀ f ∈ q'.fragments, f.length ≤ MTU) ∧
      (∀ i f, q'.fragments[i]? = some f → seqOf f = UInt32.ofNat i) ∧
      (∀ i f, q'.fragments[i]? = some f →
        firstOffset f = min (missing (readFragments none (q'.fragments.take i)).2)
          (f.length - 13)) ∧
      readFragments none q'.fragments = (messagesOf ops, none) := by
  obtain ⟨q0, hnew, hteam0, hq0⟩ := newQueue_spec teamId now
  obtain ⟨q, hrun, hteam, hq⟩ := run_spec ops hq0
  obtain ⟨ended, q', hend, hteam', hq'⟩ := endFragment_spec hq
  have htells := (planOf_tells ops tells_empty).flush
  rw [List.nil_append] at htells
  have hlayouts : (planOf ops ⟨[], none⟩).flush.layouts = (planOf ops ⟨[], none⟩).flush.closed :=
    List.append_nil _
  have hchain := htells.chain
  have hreads := htells.reads
  rw [hlayouts] at hchain hreads
  have hfragments : q'.fragments = encode (teamBytes q') (planOf ops ⟨[], none⟩).flush.closed :=
    hq'.1.fragments
  have h8 := length_teamBytes q'
  refine ⟨MTU_eq, q0, q, ended, q', hnew, hrun, hend, ?_, ?_, ?_, ?_⟩
  · intro f hf
    rw [hfragments, encode, List.mem_mapIdx] at hf
    obtain ⟨i, hi, rfl⟩ := hf
    obtain ⟨cut, hfits⟩ := hchain.fits _ (List.getElem_mem hi)
    have hsize := hfits.size
    rw [length_layout _ h8, MTU_eq]
    omega
  · intro i f hf
    rw [hfragments, encode, List.getElem?_mapIdx, Option.map_eq_some_iff] at hf
    obtain ⟨l, -, rfl⟩ := hf
    exact seqOf_bytes _ h8 _ l
  · intro i f hf
    rw [hfragments] at hf ⊢
    exact firstOffset_bytes _ h8 _ none _ hchain i f hf
  · rw [hfragments, encode, readFragments_bytes _ h8 _ none _ hchain, hreads]

end Succinct.Fragmentation
