import Succinct.ByteBuffers

/-!
What a fragment is meant to hold: the bytes that continue the message cut at
the end of the fragment before it, then messages, the last of them possibly
cut. A plan says which fragments a sequence of messages becomes, and a
reference reader gets the messages back from the bytes of the fragments.
-/
namespace Succinct.FragmentLayouts

open ByteBuffers

structure Message where
  type : UInt8
  payload : List UInt8
  short : payload.length ≤ 65535

/-- A message header with the total length of the message, and the payload
that is present. -/
structure Part where
  type : UInt8
  length : ℕ
  payload : List UInt8
  deriving DecidableEq

structure Layout where
  continuation : List UInt8
  parts : List Part
  deriving DecidableEq

def Part.bytes (p : Part) : List UInt8 := p.type :: (bigEndian 2 p.length ++ p.payload)

def Layout.body (l : Layout) : List UInt8 := l.continuation ++ l.parts.flatMap Part.bytes

def Layout.bytes (team : List UInt8) (seq : UInt32) (l : Layout) : List UInt8 :=
  team ++ bigEndian 4 seq.toNat ++ UInt8.ofNat l.continuation.length :: l.body

def encode (team : List UInt8) (ls : List Layout) : List (List UInt8) :=
  ls.mapIdx fun i l => l.bytes team (UInt32.ofNat i)

section Reader

def complete (p : Part) : List (UInt8 × List UInt8) × Option Part :=
  if p.payload.length < p.length then ([], some p) else ([(p.type, p.payload)], none)

/-- The messages in bytes that begin with a header, and the one that is cut. -/
def readParts (bytes : List UInt8) : List (UInt8 × List UInt8) × Option Part :=
  match bytes with
  | type :: hi :: lo :: rest =>
    if rest.length < ofBigEndian [hi, lo] then ([], some ⟨type, ofBigEndian [hi, lo], rest⟩)
    else
      let more := readParts (rest.drop (ofBigEndian [hi, lo]))
      ((type, rest.take (ofBigEndian [hi, lo])) :: more.1, more.2)
  | _ => ([], none)
termination_by bytes.length
decreasing_by
  simp only [List.length_drop, List.length_cons]
  omega

def resume (cut : Option Part) (bytes : List UInt8) : List (UInt8 × List UInt8) × Option Part :=
  match cut with
  | none => ([], none)
  | some p => complete { p with payload := p.payload ++ bytes }

def firstOffset (fragment : List UInt8) : ℕ := (fragment.getD 12 0).toNat

def seqOf (fragment : List UInt8) : UInt32 :=
  UInt32.ofNat (ofBigEndian ((fragment.drop 8).take 4))

def readFragment (cut : Option Part) (fragment : List UInt8) :
    List (UInt8 × List UInt8) × Option Part :=
  let body := fragment.drop 13
  let first := resume cut (body.take (firstOffset fragment))
  if body.length ≤ firstOffset fragment then first
  else
    let rest := readParts (body.drop (firstOffset fragment))
    (first.1 ++ rest.1, rest.2)

def readFragments (cut : Option Part) :
    List (List UInt8) → List (UInt8 × List UInt8) × Option Part
  | [] => ([], cut)
  | fragment :: rest =>
    let first := readFragment cut fragment
    let more := readFragments first.2 rest
    (first.1 ++ more.1, more.2)

def missing : Option Part → ℕ
  | none => 0
  | some p => p.length - p.payload.length

end Reader

section Layouts

/-- Parts as they can be written: all but the last have their whole payload. -/
inductive Written : List Part → Prop
  | nil : Written []
  | cut (p : Part) (hlen : p.length < 65536) (h : p.payload.length ≤ p.length) : Written [p]
  | cons (p : Part) (rest : List Part) (hlen : p.length < 65536)
      (h : p.payload.length = p.length) (hrest : Written rest) : Written (p :: rest)

def layoutParts : List Part → List (UInt8 × List UInt8) × Option Part
  | [] => ([], none)
  | p :: rest =>
    if p.payload.length < p.length then ([], some p)
    else ((p.type, p.payload) :: (layoutParts rest).1, (layoutParts rest).2)

def readLayout (cut : Option Part) (l : Layout) : List (UInt8 × List UInt8) × Option Part :=
  let first := resume cut l.continuation
  if l.parts = [] then first
  else (first.1 ++ (layoutParts l.parts).1, (layoutParts l.parts).2)

def readLayouts (cut : Option Part) : List Layout → List (UInt8 × List UInt8) × Option Part
  | [] => ([], cut)
  | l :: rest =>
    let first := readLayout cut l
    let more := readLayouts first.2 rest
    (first.1 ++ more.1, more.2)

structure Fits (cut : Option Part) (l : Layout) : Prop where
  continues : l.continuation.length = min (missing cut) 187
  parts : Written l.parts
  size : l.body.length ≤ 187

def Chain (cut : Option Part) : List Layout → Prop
  | [] => True
  | l :: rest => Fits cut l ∧ Chain (readLayout cut l).2 rest

theorem readLayouts_append (cut : Option Part) (a b : List Layout) :
    readLayouts cut (a ++ b) = ((readLayouts cut a).1 ++ (readLayouts (readLayouts cut a).2 b).1,
      (readLayouts (readLayouts cut a).2 b).2) := by
  induction a generalizing cut with
  | nil => rfl
  | cons l rest ih =>
    rw [List.cons_append, readLayouts, ih, readLayouts]
    simp only [List.append_assoc]

theorem readLayouts_singleton (cut : Option Part) (l : Layout) :
    readLayouts cut [l] = readLayout cut l := by
  simp [readLayouts]

theorem chain_append (cut : Option Part) (a b : List Layout) :
    Chain cut (a ++ b) ↔ Chain cut a ∧ Chain (readLayouts cut a).2 b := by
  induction a generalizing cut with
  | nil => simp [Chain, readLayouts]
  | cons l rest ih =>
    rw [List.cons_append, Chain, Chain, ih, readLayouts, and_assoc]

theorem ofBigEndian_short (n : ℕ) (h : n < 65536) : ofBigEndian (bigEndian 2 n) = n := by
  rw [ofBigEndian_bigEndian]
  exact Nat.mod_eq_of_lt h

/-- The reader finds the parts that were written. -/
theorem readParts_bytes (parts : List Part) (h : Written parts) :
    readParts (parts.flatMap Part.bytes) = layoutParts parts := by
  have hstep : ∀ (p : Part) (more : List UInt8), p.length < 65536 →
      readParts (p.bytes ++ more) = if (p.payload ++ more).length < p.length
        then ([], some ⟨p.type, p.length, p.payload ++ more⟩)
        else ((p.type, (p.payload ++ more).take p.length) ::
          (readParts ((p.payload ++ more).drop p.length)).1,
          (readParts ((p.payload ++ more).drop p.length)).2) := by
    intro p more hlen
    have hbytes : p.bytes ++ more = p.type :: UInt8.ofNat (p.length / 256 ^ 1) ::
        UInt8.ofNat (p.length / 256 ^ 0) :: (p.payload ++ more) := rfl
    have hint : ofBigEndian [UInt8.ofNat (p.length / 256 ^ 1), UInt8.ofNat (p.length / 256 ^ 0)] =
        p.length := ofBigEndian_short p.length hlen
    rw [hbytes, readParts, hint]
  induction h with
  | nil => rw [List.flatMap_nil, readParts, layoutParts]; simp
  | cut p hlen h =>
    rw [List.flatMap_singleton, ← List.append_nil p.bytes, hstep p [] hlen, List.append_nil,
      layoutParts]
    split
    · rfl
    · have hfull : p.payload.length = p.length := by omega
      rw [← hfull, List.take_length, List.drop_length, readParts, layoutParts]
      simp
  | cons p rest hlen h hrest ih =>
    rw [List.flatMap_cons, hstep p _ hlen, layoutParts,
      if_neg (by rw [List.length_append]; omega),
      if_neg (by omega), ← h, List.take_left, List.drop_left, ih]

theorem readFragment_bytes (team : List UInt8) (hteam : team.length = 8) (seq : UInt32)
    (cut : Option Part) (l : Layout) (h : Fits cut l) :
    firstOffset (l.bytes team seq) = l.continuation.length ∧
      readFragment cut (l.bytes team seq) = readLayout cut l := by
  have hsmall : l.continuation.length < 256 := by
    have := h.continues
    omega
  have hhead : (team ++ bigEndian 4 seq.toNat).length = 12 := by
    rw [List.length_append, hteam, length_bigEndian]
  have hfirst : firstOffset (l.bytes team seq) = l.continuation.length := by
    rw [firstOffset, Layout.bytes, List.getD_eq_getElem?_getD,
      List.getElem?_append_right (by omega), hhead]
    simp only [Nat.sub_self, List.getElem?_cons_zero, Option.getD_some, UInt8.toNat_ofNat']
    omega
  have hbody : (l.bytes team seq).drop 13 = l.body := by
    rw [Layout.bytes, List.drop_append, hhead]
    simp [hhead]
  refine ⟨hfirst, ?_⟩
  rw [readFragment, hfirst, hbody, readLayout, Layout.body, List.take_left, List.drop_left,
    readParts_bytes l.parts h.parts, List.length_append]
  by_cases hparts : l.parts = []
  · simp [hparts]
  · have hlong : ¬ l.continuation.length + (l.parts.flatMap Part.bytes).length ≤
        l.continuation.length := by
      obtain ⟨p, rest, hcons⟩ := List.exists_cons_of_ne_nil hparts
      rw [hcons, List.flatMap_cons, List.length_append, Part.bytes, List.length_cons]
      omega
    rw [if_neg hlong, if_neg hparts]

theorem length_layout (team : List UInt8) (hteam : team.length = 8) (seq : UInt32) (l : Layout) :
    (l.bytes team seq).length = 13 + l.body.length := by
  rw [Layout.bytes, List.length_append, List.length_append, hteam, length_bigEndian,
    List.length_cons]
  omega

theorem ofNat_bigEndian (seq : UInt32) :
    UInt32.ofNat (ofBigEndian (bigEndian 4 seq.toNat)) = seq := by
  have hmod : seq.toNat % 256 ^ 4 = seq.toNat := Nat.mod_eq_of_lt seq.toNat_lt
  rw [ofBigEndian_bigEndian, hmod, UInt32.ofNat_toNat]

theorem seqOf_bytes (team : List UInt8) (hteam : team.length = 8) (seq : UInt32) (l : Layout) :
    seqOf (l.bytes team seq) = seq := by
  have hdrop : ((l.bytes team seq).drop 8).take 4 = bigEndian 4 seq.toNat := by
    rw [Layout.bytes, List.append_assoc, List.drop_left' hteam,
      List.take_left' (length_bigEndian _ _)]
  rw [seqOf, hdrop, ofNat_bigEndian]

/-- Reading the bytes of layouts that fit is reading the layouts. -/
theorem readFragments_bytes (team : List UInt8) (hteam : team.length = 8) (number : ℕ → UInt32)
    (cut : Option Part) (ls : List Layout) (h : Chain cut ls) :
    readFragments cut (ls.mapIdx fun i l => l.bytes team (number i)) = readLayouts cut ls := by
  induction ls generalizing cut number with
  | nil => rfl
  | cons l rest ih =>
    rw [List.mapIdx_cons, readFragments, readLayouts,
      (readFragment_bytes team hteam _ cut l h.1).2, ih (fun i => number (i + 1)) _ h.2]

/-- The first offset of a fragment counts the bytes that go on with the
message cut before it. -/
theorem firstOffset_bytes (team : List UInt8) (hteam : team.length = 8) (number : ℕ → UInt32)
    (cut : Option Part) (ls : List Layout) (h : Chain cut ls) (i : ℕ) (f : List UInt8)
    (hf : (ls.mapIdx fun i l => l.bytes team (number i))[i]? = some f) :
    firstOffset f = min (missing (readFragments cut
      ((ls.mapIdx fun i l => l.bytes team (number i)).take i)).2) (f.length - 13) := by
  induction ls generalizing cut number i with
  | nil => exact absurd hf (by simp)
  | cons l rest ih =>
    obtain ⟨hoffset, hread⟩ := readFragment_bytes team hteam (number 0) cut l h.1
    rw [List.mapIdx_cons] at hf ⊢
    cases i with
    | zero =>
      rw [List.getElem?_cons_zero] at hf
      obtain rfl := Option.some.inj hf
      have hcont := h.1.continues
      have hsize := h.1.size
      have hbody : l.continuation.length ≤ l.body.length := by
        rw [Layout.body, List.length_append]
        omega
      rw [hoffset, length_layout team hteam, List.take_zero, readFragments]
      change _ = min (missing cut) _
      omega
    | succ i =>
      rw [List.getElem?_cons_succ] at hf
      rw [List.take_succ_cons, readFragments, hread]
      exact ih (fun i => number (i + 1)) _ h.2 i hf

theorem layoutParts_append (a b : List Part) (h : (layoutParts a).2 = none) :
    layoutParts (a ++ b) = ((layoutParts a).1 ++ (layoutParts b).1, (layoutParts b).2) := by
  induction a with
  | nil => rfl
  | cons p rest ih =>
    rw [layoutParts] at h
    rw [List.cons_append, layoutParts, layoutParts]
    by_cases hcut : p.payload.length < p.length
    · rw [if_pos hcut] at h
      exact absurd h (by simp)
    · rw [if_neg hcut] at h
      rw [if_neg hcut, if_neg hcut, ih h]
      rfl

theorem layoutParts_singleton (p : Part) : layoutParts [p] = complete p := by
  rw [layoutParts, complete]
  rfl

/-- Nothing is cut after parts that have their whole payload. -/
theorem layoutParts_full (parts : List Part) (h : ∀ p ∈ parts, p.payload.length = p.length) :
    (layoutParts parts).2 = none := by
  induction parts with
  | nil => rfl
  | cons p rest ih =>
    have hp := h p List.mem_cons_self
    rw [layoutParts, if_neg (by omega)]
    exact ih (fun q hq => h q (List.mem_cons_of_mem _ hq))

theorem written_append (parts : List Part) (p : Part)
    (h : ∀ q ∈ parts, q.payload.length = q.length ∧ q.length < 65536) (hlen : p.length < 65536)
    (hp : p.payload.length ≤ p.length) : Written (parts ++ [p]) := by
  induction parts with
  | nil => exact Written.cut p hlen hp
  | cons q rest ih =>
    have hq := h q List.mem_cons_self
    exact Written.cons q _ hq.2 hq.1 (ih (fun x hx => h x (List.mem_cons_of_mem _ hx)))

end Layouts

section Plan

/-- The fragments that are complete, and the open one. -/
structure Plan where
  closed : List Layout
  current : Option Layout

def Plan.layouts (p : Plan) : List Layout := p.closed ++ p.current.toList

/-- A fragment stays open while another header fits into it. -/
def settle (closed : List Layout) (l : Layout) : Plan :=
  if 187 - l.body.length < 3 then ⟨closed ++ [l], none⟩ else ⟨closed, some l⟩

def Plan.addRest (p : Plan) (rest : List UInt8) : Plan :=
  if _h : rest = [] then p
  else (settle p.layouts ⟨rest.take 187, []⟩).addRest (rest.drop 187)
termination_by rest.length
decreasing_by
  have := List.length_pos_of_ne_nil _h
  rw [List.length_drop]
  omega

def Plan.add (p : Plan) (m : Message) : Plan :=
  let l := p.current.getD ⟨[], []⟩
  let n := min m.payload.length (184 - l.body.length)
  (settle p.closed { l with parts := l.parts ++
    [⟨m.type, m.payload.length, m.payload.take n⟩] }).addRest
    (m.payload.drop n)

def Plan.flush (p : Plan) : Plan := ⟨p.layouts, none⟩

structure Tells (p : Plan) (ms : List (UInt8 × List UInt8)) : Prop where
  chain : Chain none p.layouts
  reads : readLayouts none p.layouts = (ms, none)
  room : ∀ l ∈ p.current, l.body.length ≤ 184
  full : ∀ l ∈ p.current, ∀ q ∈ l.parts, q.payload.length = q.length ∧ q.length < 65536

theorem settle_layouts (closed : List Layout) (l : Layout) :
    (settle closed l).layouts = closed ++ [l] := by
  rw [settle]
  split
  · exact List.append_nil _
  · rfl

theorem settle_current (closed : List Layout) (l l' : Layout)
    (h : l' ∈ (settle closed l).current) :
    l' = l ∧ l.body.length ≤ 184 := by
  rw [settle] at h
  by_cases hroom : 187 - l.body.length < 3
  · rw [if_pos hroom] at h
    exact absurd h (by simp)
  · rw [if_neg hroom] at h
    exact ⟨(Option.some.inj h).symm, by omega⟩

theorem addRest_nil (p : Plan) : p.addRest [] = p := by
  rw [Plan.addRest, dif_pos rfl]

theorem addRest_ne_nil (p : Plan) (rest : List UInt8) (h : rest ≠ []) :
    p.addRest rest = (settle p.layouts ⟨rest.take 187, []⟩).addRest (rest.drop 187) := by
  rw [Plan.addRest, dif_neg h]

theorem chain_snoc {closed : List Layout} {ms : List (UInt8 × List UInt8)} {cut : Option Part}
    (hchain : Chain none closed) (hreads : readLayouts none closed = (ms, cut)) {l : Layout}
    (hfits : Fits cut l) :
    Chain none (closed ++ [l]) ∧
      readLayouts none (closed ++ [l]) = (ms ++ (readLayout cut l).1, (readLayout cut l).2) := by
  rw [chain_append, readLayouts_append, hreads, readLayouts_singleton]
  exact ⟨⟨hchain, hfits, trivial⟩, rfl⟩

theorem settle_tells {closed : List Layout} {l : Layout} {ms : List (UInt8 × List UInt8)}
    (hchain : Chain none (closed ++ [l])) (hreads : readLayouts none (closed ++ [l]) = (ms, none))
    (hfull : ∀ q ∈ l.parts, q.payload.length = q.length ∧ q.length < 65536) :
    Tells (settle closed l) ms := by
  refine ⟨?_, ?_, ?_, ?_⟩
  · rw [settle_layouts]
    exact hchain
  · rw [settle_layouts]
    exact hreads
  · intro l' hl'
    obtain ⟨rfl, hroom⟩ := settle_current _ _ _ hl'
    exact hroom
  · intro l' hl'
    obtain ⟨rfl, -⟩ := settle_current _ _ _ hl'
    exact hfull

/-- The rest of a cut message completes it. -/
theorem addRest_tells (rest : List UInt8) (p : Plan) (ms : List (UInt8 × List UInt8)) (cut : Part)
    (hrest : rest ≠ []) (hlen : cut.length = cut.payload.length + rest.length)
    (hchain : Chain none p.layouts) (hreads : readLayouts none p.layouts = (ms, some cut)) :
    Tells (p.addRest rest) (ms ++ [(cut.type, cut.payload ++ rest)]) := by
  induction hn : rest.length using Nat.strong_induction_on generalizing rest p cut with
  | _ n ih =>
    have hpos := List.length_pos_of_ne_nil hrest
    have hfits : Fits (some cut) ⟨rest.take 187, []⟩ := by
      refine ⟨?_, Written.nil, ?_⟩
      · simp only [List.length_take, missing]
        omega
      · simp only [Layout.body, List.flatMap_nil, List.append_nil, List.length_take]
        omega
    obtain ⟨hchain', hreads'⟩ := chain_snoc hchain hreads hfits
    have hread : readLayout (some cut) ⟨rest.take 187, []⟩ =
        complete { cut with payload := cut.payload ++ rest.take 187 } := by
      simp [readLayout, resume]
    rw [addRest_ne_nil p rest hrest]
    by_cases hlast : rest.length ≤ 187
    · have htake : rest.take 187 = rest := List.take_of_length_le hlast
      have hdrop : rest.drop 187 = [] := List.drop_eq_nil_of_le hlast
      have hdone : complete { cut with payload := cut.payload ++ rest } =
          ([(cut.type, cut.payload ++ rest)], none) := by
        rw [complete, if_neg]
        change ¬ (cut.payload ++ rest).length < cut.length
        rw [List.length_append]
        omega
      rw [hread, htake, hdone] at hreads'
      rw [htake] at hchain'
      rw [hdrop, addRest_nil, htake]
      exact settle_tells hchain' hreads' (fun q hq => absurd hq List.not_mem_nil)
    · have hcut : complete { cut with payload := cut.payload ++ rest.take 187 } =
          ([], some { cut with payload := cut.payload ++ rest.take 187 }) := by
        rw [complete, if_pos]
        change (cut.payload ++ rest.take 187).length < cut.length
        rw [List.length_append, List.length_take]
        omega
      rw [hread, hcut, List.append_nil] at hreads'
      have hdrop : rest.drop 187 ≠ [] := by
        intro hnil
        have := congrArg List.length hnil
        rw [List.length_drop, List.length_nil] at this
        omega
      have hnext := ih (rest.drop 187).length (by rw [List.length_drop]; omega) (rest.drop 187)
        (settle p.layouts ⟨rest.take 187, []⟩)
          { cut with payload := cut.payload ++ rest.take 187 }
        hdrop (by
          change cut.length = (cut.payload ++ rest.take 187).length + (rest.drop 187).length
          rw [List.length_append, List.length_take, List.length_drop]
          omega) (by rw [settle_layouts]; exact hchain')
            (by rw [settle_layouts]; exact hreads') rfl
      have hwhole : cut.payload ++ rest.take 187 ++ rest.drop 187 = cut.payload ++ rest := by
        rw [List.append_assoc, List.take_append_drop]
      change Tells _ (ms ++ [(cut.type, cut.payload ++ rest.take 187 ++ rest.drop 187)]) at hnext
      rw [hwhole] at hnext
      exact hnext

/-- Before a message is added, its fragment is open or new. -/
theorem Tells.open {p : Plan} {ms : List (UInt8 × List UInt8)} (h : Tells p ms) :
    ∃ cut done, Fits cut (p.current.getD ⟨[], []⟩) ∧ Chain none p.closed ∧
      readLayouts none p.closed = (done, cut) ∧
      ms = done ++ (readLayout cut (p.current.getD ⟨[], []⟩)).1 ∧
      (readLayout cut (p.current.getD ⟨[], []⟩)).2 = none ∧
      (p.current.getD ⟨[], []⟩).body.length ≤ 184 ∧
      ∀ q ∈ (p.current.getD ⟨[], []⟩).parts, q.payload.length = q.length ∧ q.length < 65536 := by
  obtain ⟨closed, current⟩ := p
  have hchain := h.chain
  have hreads := h.reads
  cases current with
  | none =>
    rw [Plan.layouts, Option.toList_none, List.append_nil] at hchain hreads
    refine ⟨none, ms, ⟨?_, Written.nil, ?_⟩, hchain, hreads, ?_, rfl, ?_, ?_⟩
    · simp [missing]
    · simp [Layout.body]
    · simp [readLayout, resume]
    · simp [Layout.body]
    · exact fun q hq => absurd hq List.not_mem_nil
  | some l =>
    change Chain none (closed ++ [l]) at hchain
    change readLayouts none (closed ++ [l]) = (ms, none) at hreads
    rw [chain_append] at hchain
    rw [readLayouts_append, readLayouts_singleton] at hreads
    refine ⟨_, _, hchain.2.1, hchain.1, rfl, ?_, ?_, h.room l rfl, h.full l rfl⟩
    · exact (Prod.mk.inj hreads).1.symm
    · exact (Prod.mk.inj hreads).2

theorem Chain.fits {cut : Option Part} {ls : List Layout} (h : Chain cut ls) (l : Layout)
    (hl : l ∈ ls) : ∃ cut', Fits cut' l := by
  induction ls generalizing cut with
  | nil => exact absurd hl List.not_mem_nil
  | cons l' rest ih =>
    rcases List.mem_cons.mp hl with rfl | hl
    · exact ⟨cut, h.1⟩
    · exact ih h.2 hl

theorem body_snoc (l : Layout) (q : Part) :
    ({ l with parts := l.parts ++ [q] } : Layout).body = l.body ++ q.bytes := by
  rw [Layout.body, Layout.body, List.flatMap_append, List.flatMap_singleton, List.append_assoc]

theorem length_bytes (q : Part) : q.bytes.length = 3 + q.payload.length := by
  rw [Part.bytes, List.length_cons, List.length_append, length_bigEndian]
  omega

/-- Adding a message to a plan adds it to what the fragments tell. -/
theorem Tells.add {p : Plan} {ms : List (UInt8 × List UInt8)} (h : Tells p ms) (m : Message) :
    Tells (p.add m) (ms ++ [(m.type, m.payload)]) := by
  obtain ⟨cut, done, hfits, hchain, hreads, hms, hnone, hroom, hfull⟩ := h.open
  have hshort := m.short
  rw [Plan.add]
  generalize p.current.getD ⟨[], []⟩ = l at hfits hms hnone hroom hfull
  generalize hn : min m.payload.length (184 - l.body.length) = n
  have htake : (m.payload.take n).length = n := by
    rw [List.length_take]
    omega
  have hfits' : Fits cut { l
    with parts := l.parts ++ [⟨m.type, m.payload.length, m.payload.take n⟩] } := by
    refine ⟨hfits.continues, ?_, ?_⟩
    · apply written_append _ _ hfull
      · change m.payload.length < 65536
        omega
      · change (m.payload.take n).length ≤ m.payload.length
        omega
    · rw [body_snoc, List.length_append, length_bytes]
      change l.body.length + (3 + (m.payload.take n).length) ≤ 187
      omega
  have hread : readLayout cut
    { l with parts := l.parts ++ [⟨m.type, m.payload.length, m.payload.take n⟩] } =
      ((readLayout cut l).1 ++ (complete ⟨m.type, m.payload.length, m.payload.take n⟩).1,
        (complete ⟨m.type, m.payload.length, m.payload.take n⟩).2) := by
    have hparts := layoutParts_append l.parts [⟨m.type, m.payload.length, m.payload.take n⟩]
      (layoutParts_full l.parts (fun q hq => (hfull q hq).1))
    rw [layoutParts_singleton] at hparts
    rw [readLayout, readLayout, if_neg (by simp), hparts]
    by_cases hempty : l.parts = []
    · rw [if_pos hempty, hempty]
      rfl
    · rw [if_neg hempty, List.append_assoc]
  obtain ⟨hchain', hreads'⟩ := chain_snoc hchain hreads hfits'
  rw [hread, ← List.append_assoc, ← hms] at hreads'
  by_cases hall : m.payload.length ≤ n
  · have htake' : m.payload.take n = m.payload := List.take_of_length_le hall
    have hdone : complete ⟨m.type, m.payload.length, m.payload⟩ =
      ([(m.type, m.payload)], none) := by
      rw [complete, if_neg (Nat.lt_irrefl _)]
    rw [htake'] at hreads' hchain' ⊢
    rw [hdone] at hreads'
    rw [List.drop_eq_nil_of_le hall, addRest_nil]
    apply settle_tells hchain' hreads'
    intro q hq
    rcases List.mem_append.mp hq with hq | hq
    · exact hfull q hq
    · rw [List.mem_singleton.mp hq]
      exact ⟨rfl, by change m.payload.length < 65536; omega⟩
  · have hcut : complete ⟨m.type, m.payload.length, m.payload.take n⟩ =
        ([], some ⟨m.type, m.payload.length, m.payload.take n⟩) := by
      rw [complete, if_pos]
      change (m.payload.take n).length < m.payload.length
      omega
    rw [hcut, List.append_nil] at hreads'
    have hrest : m.payload.drop n ≠ [] := by
      intro hnil
      have := congrArg List.length hnil
      rw [List.length_drop, List.length_nil] at this
      omega
    have hdone := addRest_tells (m.payload.drop n) _ ms
      ⟨m.type, m.payload.length, m.payload.take n⟩ hrest (by
      change m.payload.length = (m.payload.take n).length + (m.payload.drop n).length
      rw [List.length_drop]
      omega) (by rw [settle_layouts]; exact hchain') (by rw [settle_layouts]; exact hreads')
    change Tells _ (ms ++ [(m.type, m.payload.take n ++ m.payload.drop n)]) at hdone
    rw [List.take_append_drop] at hdone
    exact hdone

theorem Tells.flush {p : Plan} {ms : List (UInt8 × List UInt8)} (h : Tells p ms) :
    Tells p.flush ms := by
  have hlayouts : p.flush.layouts = p.layouts := List.append_nil _
  refine ⟨?_, ?_, ?_, ?_⟩
  · rw [hlayouts]
    exact h.chain
  · rw [hlayouts]
    exact h.reads
  · exact fun l hl => absurd hl (by simp [Plan.flush])
  · exact fun l hl => absurd hl (by simp [Plan.flush])

end Plan

end Succinct.FragmentLayouts
