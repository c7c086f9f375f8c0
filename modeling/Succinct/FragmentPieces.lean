import Succinct.Fragmentation

/-!
The pieces that getPieces finds in a stored fragment. A continued message is
delimited by comparing its absolute end with the number of bytes that remain,
so it takes in what follows it unless at least fourteen bytes do.
-/
namespace Succinct.FragmentPieces

open ByteBuffers MessageQueue FragmentLayouts Fragmentation

structure At (b : ByteBuffer) (src : List UInt8) (n : ℕ) : Prop where
  bytes : b.bytes = src
  position : b.position = n
  limit : b.limit = src.length

theorem At.remaining {b : ByteBuffer} {bytes : List UInt8} {position : ℕ}
    (h : At b bytes position) :
    b.remaining = (bytes.drop position).length := by
  rw [ByteBuffer.remaining, h.limit, h.position, List.length_drop]

theorem At.get {b : ByteBuffer} {bytes : List UInt8} {position : ℕ} (h : At b bytes position)
    {src rest : List UInt8} (hbytes : bytes.drop position = src ++ rest) :
    ∃ b', b.get src.length = some (src, b') ∧ At b' bytes (position + src.length) := by
  obtain ⟨b', hget, hb, hpos, hlim, -⟩ := b.get_spec src.length (by
    rw [h.remaining, hbytes, List.length_append]
    omega)
  refine ⟨b', ?_, hb.trans h.bytes, ?_, ?_⟩
  · rw [hget, h.bytes, h.position, hbytes, List.take_left]
  · rw [hpos, h.position]
  · rw [hlim, h.limit]

theorem takePiece_all {b : ByteBuffer} {bytes : List UInt8} {position : ℕ}
    (h : At b bytes position)
    (type len : ℤ) : ∃ b', takePiece b type len = some (⟨type, len, bytes.drop position⟩, b') ∧
      At b' bytes bytes.length := by
  obtain ⟨b1, hset, hb1, hpos1, hlim1, -⟩ := b.setPosition_spec b.limit (Nat.le_refl _)
  obtain ⟨b2, hlim, hb2, hpos2, hlim2, -⟩ := b1.setLimit_spec b1.capacity
    (Nat.le_trans b1.position_le b1.limit_le) (Nat.le_refl _)
  have hcap : b1.capacity = bytes.length := by rw [ByteBuffer.capacity, hb1, h.bytes]
  refine ⟨b2, ?_, hb2.trans (hb1.trans h.bytes), ?_, ?_⟩
  · have hslice : b.slice = bytes.drop position := by
      rw [ByteBuffer.slice, h.remaining, h.bytes, h.position, List.take_length]
    rw [takePiece, hslice, hset]
    simp only [Option.bind_eq_bind, Option.bind_some, hlim]
  · rw [hpos2, hpos1, h.limit]
  · rw [hlim2, hcap]

/-- A piece of the given length is cut off what remains. -/
theorem takePiece_limit {b : ByteBuffer} {bytes : List UInt8} {position : ℕ}
    (h : At b bytes position) (type len : ℤ) {src rest : List UInt8}
    (hbytes : bytes.drop position = src ++ rest) :
    ∃ b1 b', b.setLimit (b.position + src.length : ℕ) = some b1 ∧
      takePiece b1 type len = some (⟨type, len, src⟩, b') ∧
      At b' bytes (position + src.length) := by
  have hlen : position + src.length ≤ bytes.length := by
    have hcount := congrArg List.length hbytes
    have hpos := b.position_le
    rw [h.position, h.limit] at hpos
    rw [List.length_drop, List.length_append] at hcount
    omega
  have hcap : b.capacity = bytes.length := by rw [ByteBuffer.capacity, h.bytes]
  obtain ⟨b1, hlim, hb1, hpos1, hlim1, -⟩ := b.setLimit_spec (b.position + src.length)
    (Nat.le_add_right _ _) (by rw [hcap, h.position]; exact hlen)
  obtain ⟨b2, hset, hb2, hpos2, hlim2, -⟩ := b1.setPosition_spec b1.limit (Nat.le_refl _)
  obtain ⟨b3, hlim', hb3, hpos3, hlim3, -⟩ := b2.setLimit_spec b2.capacity
    (Nat.le_trans b2.position_le b2.limit_le) (Nat.le_refl _)
  refine ⟨b1, b3, hlim, ?_, hb3.trans (hb2.trans (hb1.trans h.bytes)), ?_, ?_⟩
  · have hslice : b1.slice = src := by
      rw [ByteBuffer.slice, ByteBuffer.remaining, hb1, hpos1, hlim1, h.bytes, h.position, hbytes,
        Nat.add_sub_cancel_left, List.take_left]
    rw [takePiece, hslice, hset]
    simp only [Option.bind_eq_bind, Option.bind_some, hlim']
  · rw [hpos3, hpos2, hlim1, h.position]
  · rw [hlim3, ByteBuffer.capacity, hb2, hb1, h.bytes]

def toPiece (p : Part) : Piece := ⟨p.type.toNat, p.length, p.payload⟩

/-- The loop finds the parts that were written. -/
theorem piecesLoop_spec (parts : List Part) (hparts : Written parts) {b : ByteBuffer}
    {bytes : List UInt8} {position : ℕ} (h : At b bytes position)
    (hbytes : bytes.drop position = parts.flatMap Part.bytes) (fuel : ℕ)
    (hfuel : parts.length < fuel) : piecesLoop fuel b = some (parts.map toPiece) := by
  -- one message is taken off the front
  have hstep : ∀ {b : ByteBuffer} {position : ℕ} (p : Part) (more : List UInt8) (fuel : ℕ),
      At b bytes position → p.length < 65536 → p.payload.length ≤ p.length →
      (p.payload.length < p.length → more = []) →
      bytes.drop position = p.bytes ++ more →
      ∃ b', At b' bytes (position + p.bytes.length) ∧
        piecesLoop (fuel + 1) b = (piecesLoop fuel b').map (toPiece p :: ·) := by
    intro b position p more fuel h hshort hle hcut hbytes
    have hsplit : p.bytes = [p.type] ++ bigEndian 2 p.length ++ p.payload := rfl
    rw [hsplit, List.append_assoc, List.append_assoc] at hbytes
    obtain ⟨b1, hget1, hb1⟩ := h.get hbytes
    have hdrop1 : bytes.drop (position + [p.type].length) =
        bigEndian 2 p.length ++ (p.payload ++ more) := by
      rw [← List.drop_drop, hbytes, List.drop_left, ← List.append_assoc]
    obtain ⟨b2, hget2, hb2⟩ := hb1.get hdrop1
    have hdrop2 : bytes.drop (position + [p.type].length + (bigEndian 2 p.length).length) =
        p.payload ++ more := by
      rw [← List.drop_drop, hdrop1, List.drop_left]
    rw [length_bigEndian] at hget2
    have hpos : position + p.bytes.length =
        position + [p.type].length + (bigEndian 2 p.length).length + p.payload.length := by
      rw [length_bytes, length_bigEndian, List.length_singleton]
      omega
    have hmore : b.hasRemaining = true := by
      have hremaining := h.remaining
      rw [hbytes, List.length_append, ByteBuffer.remaining, List.length_singleton] at hremaining
      rw [ByteBuffer.hasRemaining, decide_eq_true_iff]
      omega
    have hrest := hb2.remaining
    rw [hdrop2] at hrest
    have htake : ∃ b3 b', limitMessage b2 p.length = some b3 ∧
        takePiece b3 p.type.toNat p.length = some (toPiece p, b') ∧
        At b' bytes (position + p.bytes.length) := by
      rw [hpos]
      by_cases hinside : p.length < b2.remaining
      · have hfull : p.length = p.payload.length := by
          by_contra hne
          rw [hrest, hcut (by omega), List.append_nil] at hinside
          omega
        obtain ⟨b3, b', hlimit, htake, hb'⟩ := takePiece_limit hb2 p.type.toNat p.length hdrop2
        refine ⟨b3, b', ?_, htake, hb'⟩
        rw [limitMessage, if_pos hinside, hfull, hlimit]
      · have hnil : more = [] := by
          rw [hrest, List.length_append] at hinside
          by_cases hlt : p.payload.length < p.length
          · exact hcut hlt
          · exact List.eq_nil_of_length_eq_zero (by omega)
        obtain ⟨b', htake, hb'⟩ := takePiece_all hb2 p.type.toNat p.length
        rw [hdrop2, hnil, List.append_nil] at htake
        refine ⟨b2, b', ?_, htake, ?_⟩
        · rw [limitMessage, if_neg hinside]
        · have hend : position + [p.type].length +
            (bigEndian 2 p.length).length + p.payload.length =
              bytes.length := by
            have hpos2 := b2.position_le
            rw [hb2.position, hb2.limit] at hpos2
            have hcount := congrArg List.length hdrop2
            rw [hnil, List.append_nil, List.length_drop] at hcount
            omega
          rw [hend]
          exact hb'
    obtain ⟨b3, b', hlimit, htake, hb'⟩ := htake
    refine ⟨b', hb', ?_⟩
    have hlen : ofBigEndian (bigEndian 2 p.length) = p.length := ofBigEndian_short p.length hshort
    rw [List.length_singleton] at hget1
    rw [piecesLoop, if_pos hmore, hget1]
    simp only [Option.bind_eq_bind, Option.bind_some, ByteBuffer.getShort, hget2,
      Option.map_some, hlen, hlimit, List.getD_cons_zero, htake]
    cases piecesLoop fuel b' <;> rfl
  have hend : ∀ {b : ByteBuffer} {position : ℕ} (fuel : ℕ), At b bytes position →
      bytes.drop position = [] → piecesLoop (fuel + 1) b = some [] := by
    intro b position fuel h hnil
    have hremaining := h.remaining
    rw [hnil, ByteBuffer.remaining, List.length_nil] at hremaining
    have hdone : ¬ b.hasRemaining = true := by
      rw [ByteBuffer.hasRemaining, decide_eq_true_iff]
      omega
    rw [piecesLoop, if_neg hdone]
  induction hparts generalizing b position fuel with
  | nil =>
    obtain ⟨fuel, rfl⟩ : ∃ n, fuel = n + 1 := ⟨fuel - 1, by simp at hfuel; omega⟩
    exact hend fuel h hbytes
  | cut p hlen hle =>
    obtain ⟨fuel, rfl⟩ : ∃ n, fuel = n + 2 := ⟨fuel - 2, by simp at hfuel; omega⟩
    rw [List.flatMap_singleton] at hbytes
    obtain ⟨b', hb', hrun⟩ := hstep p [] (fuel + 1) h hlen hle (fun _ => rfl) (by
      rw [hbytes, List.append_nil])
    have hnil : bytes.drop (position + p.bytes.length) = [] := by
      rw [← List.drop_drop, hbytes, List.drop_length]
    rw [hrun, hend fuel hb' hnil]
    rfl
  | cons p rest hlen hfull hrest ih =>
    obtain ⟨fuel, rfl⟩ : ∃ n, fuel = n + 1 := ⟨fuel - 1, by simp at hfuel; omega⟩
    rw [List.flatMap_cons] at hbytes
    obtain ⟨b', hb', hrun⟩ :=
      hstep p _ fuel h hlen (Nat.le_of_eq hfull) (fun hlt => by omega) hbytes
    have hdrop : bytes.drop (position + p.bytes.length) = rest.flatMap Part.bytes := by
      rw [← List.drop_drop, hbytes, List.drop_left]
    rw [hrun, ih hb' hdrop fuel (by simp at hfuel; omega)]
    rfl

def expectedPieces (l : Layout) : List Piece :=
  (if l.continuation = [] then [] else [⟨TYPE_PARTIAL, -1, l.continuation⟩]) ++
    l.parts.map toPiece

/-- The constructor reads the header of a fragment. -/
theorem newFragment_bytes (team : PeerId) (seq : UInt32) (l : Layout)
    (hcont : l.continuation.length ≤ 187) :
    ∃ f, newFragment (l.bytes (List.ofFn team) seq) = some f ∧ f.seq = seq ∧
      f.firstOffset = l.continuation.length ∧ At f.buffer (l.bytes (List.ofFn team) seq) 13 ∧
      f.buffer.mark = some 13 := by
  generalize hbytes : l.bytes (List.ofFn team) seq = bytes
  have hsplit : bytes = List.ofFn team ++ (bigEndian 4 seq.toNat ++
      ([UInt8.ofNat l.continuation.length] ++ l.body)) := by
    rw [← hbytes, Layout.bytes, List.append_assoc]
    rfl
  have hteam : (List.ofFn team).length = 8 := List.length_ofFn
  have hlen : bytes.length = 13 + l.body.length := by
    rw [← hbytes, length_layout _ hteam]
  have hwrap : At (ByteBuffer.wrap bytes) bytes 0 := ⟨rfl, rfl, rfl⟩
  have hdrop0 : bytes.drop 0 = List.ofFn team ++ (bigEndian 4 seq.toNat ++
      ([UInt8.ofNat l.continuation.length] ++ l.body)) := hsplit
  obtain ⟨b1, hget1, hb1⟩ := hwrap.get hdrop0
  have hdrop1 : bytes.drop (0 + (List.ofFn team).length) = bigEndian 4 seq.toNat ++
      ([UInt8.ofNat l.continuation.length] ++ l.body) := by
    rw [Nat.zero_add, hsplit, List.drop_left]
  obtain ⟨b2, hget2, hb2⟩ := hb1.get hdrop1
  have hdrop2 : bytes.drop (0 + (List.ofFn team).length + (bigEndian 4 seq.toNat).length) =
      [UInt8.ofNat l.continuation.length] ++ l.body := by
    rw [← List.drop_drop, hdrop1, List.drop_left]
  obtain ⟨b3, hget3, hb3⟩ := hb2.get hdrop2
  rw [hteam] at hget1
  rw [length_bigEndian] at hget2
  rw [List.length_singleton] at hget3
  rw [hteam, length_bigEndian, List.length_singleton] at hb3
  have hlong : ¬ (ByteBuffer.wrap bytes).remaining < 13 := by
    rw [hwrap.remaining, List.drop_zero]
    omega
  have hbyte : (UInt8.ofNat l.continuation.length).toNat = l.continuation.length := by
    rw [UInt8.toNat_ofNat']
    omega
  refine ⟨⟨bytes, some (fun i => (List.ofFn team).getD i.val 0), UInt32.ofNat
    (ofBigEndian (bigEndian 4 seq.toNat)), l.continuation.length, b3.setMark⟩, ?_, ?_, rfl,
    ⟨hb3.bytes, hb3.position, hb3.limit⟩, ?_⟩
  · rw [newFragment, if_neg hlong]
    simp only [readPeerId, hget1, Option.bind_eq_bind, Option.bind_some, ByteBuffer.getInt, hget2,
      Option.map_some, hget3, List.getD_cons_zero, hbyte]
  · exact ofNat_bigEndian seq
  · change some b3.position = some 13
    rw [hb3.position]

theorem reset_spec {b : ByteBuffer} {bytes : List UInt8} {n : ℕ} (h : At b bytes n)
    (hmark : b.mark = some n) : ∃ b', b.reset = some b' ∧ At b' bytes n := by
  have hle : n ≤ b.limit := by
    rw [← h.position]
    exact b.position_le
  refine ⟨{ b with position := n, position_le := hle }, ?_, h.bytes, rfl, h.limit⟩
  rw [ByteBuffer.reset, hmark, Option.bind_some, dif_pos hle]

theorem setLimit_all {b : ByteBuffer} {bytes : List UInt8} {n : ℕ} (h : At b bytes n) :
    ∃ b', b.setLimit b.capacity = some b' ∧ At b' bytes n := by
  obtain ⟨b', hset, hb, hpos, hlim, -⟩ := b.setLimit_spec b.capacity
    (Nat.le_trans b.position_le b.limit_le) (Nat.le_refl _)
  exact ⟨b', hset, hb.trans h.bytes, hpos.trans h.position, by
    rw [hlim, ByteBuffer.capacity, h.bytes]⟩

theorem length_parts_le (parts : List Part) :
    parts.length ≤ (parts.flatMap Part.bytes).length := by
  induction parts with
  | nil => exact Nat.le_refl 0
  | cons p rest ih =>
    rw [List.flatMap_cons, List.length_append, length_bytes, List.length_cons]
    omega

/-- A continued message is delimited when fourteen bytes follow it, or none. -/
def Delimited (l : Layout) : Prop :=
  l.continuation.length = 0 ∨ l.body.length = l.continuation.length ∨
    l.continuation.length + 14 ≤ l.body.length

/-- The pieces of a fragment are those written into it exactly when its
continued message is delimited. -/
theorem getPieces_bytes (team : PeerId) (seq : UInt32) (l : Layout) (hparts : Written l.parts)
    (hcont : l.continuation.length ≤ 187) :
    (newFragment (l.bytes (List.ofFn team) seq)).bind getPieces = some (expectedPieces l) ↔
      Delimited l := by
  obtain ⟨f, hnew, -, hfirst, hbuffer, hmark⟩ := newFragment_bytes team seq l hcont
  obtain ⟨b0, hreset, hb0⟩ := reset_spec hbuffer hmark
  have hlen := length_layout (List.ofFn team) List.length_ofFn seq l
  have hhead : (List.ofFn team ++ bigEndian 4 seq.toNat ++
    [UInt8.ofNat l.continuation.length]).length =
      13 := by
    rw [List.length_append, List.length_append, List.length_ofFn, length_bigEndian,
      List.length_singleton]
  have hdrop : (l.bytes (List.ofFn team) seq).drop 13 =
      l.continuation ++ l.parts.flatMap Part.bytes := by
    have hsplit : l.bytes (List.ofFn team) seq = List.ofFn team ++ bigEndian 4 seq.toNat ++
        [UInt8.ofNat l.continuation.length] ++ l.body := by
      rw [Layout.bytes, List.append_assoc (List.ofFn team ++ bigEndian 4 seq.toNat)]
      rfl
    rw [hsplit, List.drop_left' hhead]
    rfl
  generalize l.bytes (List.ofFn team) seq = bytes at hnew hbuffer hb0 hlen hdrop
  have hbody : l.body.length = l.continuation.length + (l.parts.flatMap Part.bytes).length := by
    rw [Layout.body, List.length_append]
  have hcount := length_parts_le l.parts
  have hcapacity : ∀ {b : ByteBuffer} {n : ℕ}, At b bytes n →
    l.parts.length < b.capacity + 1 := by
    intro b n h
    rw [ByteBuffer.capacity, h.bytes]
    omega
  rw [hnew, Option.bind_some, getPieces, hreset, hfirst, expectedPieces, Delimited]
  simp only [Option.bind_eq_bind, Option.bind_some]
  by_cases hnone : l.continuation = []
  · obtain ⟨b1, hlimit, hb1⟩ := setLimit_all hb0
    have hrest : bytes.drop 13 = l.parts.flatMap Part.bytes := by
      rw [hdrop, hnone, List.nil_append]
    rw [if_neg (by simp [hnone]), if_pos hnone, hlimit, Option.bind_some,
      piecesLoop_spec l.parts hparts hb1 hrest _ (hcapacity hb1)]
    simp [hnone]
  · have hpos : 0 < l.continuation.length := List.length_pos_of_ne_nil hnone
    have hremaining := hb0.remaining
    rw [hdrop, List.length_append] at hremaining
    rw [if_pos hpos, if_neg hnone]
    by_cases hmany : 13 + l.continuation.length < b0.remaining
    · obtain ⟨b1, b2, hlimit, htake, hb2⟩ := takePiece_limit hb0 TYPE_PARTIAL (-1) hdrop
      have hlimited : limitPartial b0 l.continuation.length = some b1 := by
        rw [limitPartial, hb0.position, if_pos hmany, ← hb0.position, hlimit]
      have hrest : bytes.drop (13 + l.continuation.length) = l.parts.flatMap Part.bytes := by
        rw [← List.drop_drop, hdrop, List.drop_left]
      rw [hlimited, Option.bind_some, htake, Option.bind_some,
        piecesLoop_spec l.parts hparts hb2 hrest _ (hcapacity hb2)]
      simp only [Option.bind_some, List.cons_append, List.nil_append, true_iff]
      omega
    · obtain ⟨b1, htake, hb1⟩ := takePiece_all hb0 TYPE_PARTIAL (-1)
      have hlimited : limitPartial b0 l.continuation.length = some b0 := by
        rw [limitPartial, hb0.position, if_neg hmany]
      have hloop : piecesLoop (b1.capacity + 1) b1 = some [] :=
        piecesLoop_spec [] Written.nil hb1 (List.drop_length) _ (Nat.succ_pos _)
      rw [hlimited, Option.bind_some, htake, Option.bind_some, hloop, Option.bind_some, hdrop]
      -- all that follows is taken for the continued message
      constructor
      · intro heq
        have hpayload := congrArg (fun ps : Option (List Piece) =>
          (ps.bind List.head?).map (fun p => p.payload.length)) heq
        simp only [List.cons_append, Option.bind_some, List.head?_cons, Option.map_some,
          List.length_append, Option.some.injEq] at hpayload
        omega
      · intro hdelimited
        have hzero : (l.parts.flatMap Part.bytes).length = 0 := by omega
        have hparts' : l.parts = [] := List.eq_nil_of_length_eq_zero (by omega)
        rw [hparts']
        simp

/-- In every run, the decoder finds in a stored fragment the pieces written
into it exactly when its continued message is delimited. -/
theorem getPieces_iff_delimited (teamId : PeerId) (now : ℤ) (ops : List Op) :
    ∃ q0 q, newQueue teamId [] [] now = some q0 ∧ run ops q0 = some q ∧
      q.fragments = encode (List.ofFn teamId) (planOf ops ⟨[], none⟩).closed ∧
      ∀ l ∈ (planOf ops ⟨[], none⟩).closed, ∀ seq,
        (newFragment (l.bytes (List.ofFn teamId) seq)).bind getPieces = some (expectedPieces l) ↔
          Delimited l := by
  obtain ⟨q0, hnew, hteam0, hq0⟩ := newQueue_spec teamId now
  obtain ⟨q, hrun, hteam, hq⟩ := run_spec ops hq0
  have htells := planOf_tells ops tells_empty
  have hchain := ((chain_append none _ _).mp htells.chain).1
  refine ⟨q0, q, hnew, hrun, ?_, ?_⟩
  · rw [hq.fragments, teamBytes, hteam, hteam0]
  · intro l hl seq
    obtain ⟨cut, hfits⟩ := hchain.fits l hl
    exact getPieces_bytes teamId seq l hfits.parts (by
      have := hfits.continues
      omega)

def cutThenShort : List Op :=
  [.message 0 ⟨5, List.replicate 190 1,
    Nat.le_trans (Nat.le_of_eq List.length_replicate) (by omega)⟩,
    .message 0 ⟨5, [7, 8], Nat.le_trans (Nat.le_refl 2) (by omega)⟩, .endFragment]

def swallowing : Layout := ⟨List.replicate 6 1, [⟨5, 2, [7, 8]⟩]⟩

/-- The second fragment holds six continued bytes and a whole message, and
the decoder gives one piece of eleven bytes. -/
theorem getPieces_swallows :
    ((newQueue (fun _ => 0) [] [] 0).bind (run cutThenShort)).bind (fun q => q.fragments[1]?) =
        some (swallowing.bytes (List.replicate 8 0) 1) ∧
      (newFragment (swallowing.bytes (List.replicate 8 0) 1)).bind getPieces =
        some [⟨TYPE_PARTIAL, -1, List.replicate 6 1 ++ [5, 0, 2, 7, 8]⟩] ∧
      expectedPieces swallowing = [⟨TYPE_PARTIAL, -1, List.replicate 6 1⟩, ⟨5, 2, [7, 8]⟩] := by
  decide +kernel

end Succinct.FragmentPieces
