import Succinct.ReplicaAgreement

/-!
What the devices of a team can rely on, in every world that they can come to. The
results are about the files that a device finds when it opens them.
-/
namespace Succinct.SharedFiles

open NativeStore RecordStore Provenance TeamRestarts PeerTransfers TeamCalls PeerSlots
  FileReplicas ReplicaTruth ReplicaMethods ReplicaRuns ReplicaAgreement
open Messages (Message Heap create)
open AuthoredLogs (Follows)

section Runs

variable {Path Dev : Type} [DecidableEq Path] [DecidableEq Dev]
    {resolve : Name → Path} {heap : Heap}
  {names : List Name} {author : Name → Dev} {D : Name → List UInt8} {w w' : World Path Dev}

theorem run_ok (h : WorldOk resolve heap names author D w) (hnames : Names resolve names)
    (hrun : Relation.ReflTransGen (Next resolve heap names author) w w') :
    (∃ D', WorldOk resolve heap names author D' w') ∧
      Relation.ReflTransGen (AuthoredLogs.Step fun file : File names => author file)
        (logs heap names w) (logs heap names w') := by
  induction hrun with
  | refl => exact ⟨⟨D, h⟩, .refl⟩
  | tail _ hnext ih =>
    obtain ⟨⟨D', hok⟩, hlogs⟩ := ih
    obtain ⟨a, hpermitted, hstep⟩ := hnext
    have happened := step_happened hok hnames hpermitted hstep
    obtain ⟨D'', -, hok'⟩ := happened.ok hok hnames
    exact ⟨⟨D'', hok'⟩, hlogs.trans (happened.refines hok hnames).to_reflTransGen⟩

theorem reachable_iff_run : Reachable resolve heap names author w ↔
    Relation.ReflTransGen (Next resolve heap names author) World.start w := by
  constructor
  · intro h
    induction h with
    | start => exact .refl
    | step a _ hpermitted hstep ih => exact ih.tail ⟨a, hpermitted, hstep⟩
  · intro h
    induction h with
    | refl => exact .start
    | tail _ hnext ih =>
      obtain ⟨a, hpermitted, hstep⟩ := hnext
      exact .step a ih hpermitted hstep

omit [DecidableEq Path] [DecidableEq Dev] in
theorem start_follows :
    Follows (fun file : File names => author file)
      (logs heap names (World.start : World Path Dev)) where
  content _ _ := List.prefix_rfl
  sent := by
    rintro p ⟨frame, hframe, -⟩
    exact absurd hframe List.not_mem_nil

/-- What a device has of a file is a prefix of what the author has committed. -/
theorem reachable_follows (hnames : Names resolve names)
    (h : Reachable resolve heap names author w) :
    Follows (fun file : File names => author file) (logs heap names w) :=
  start_follows.run (run_ok start_ok hnames (reachable_iff_run.mp h)).2

theorem run_committed (h : WorldOk resolve heap names author D w) (hnames : Names resolve names)
    (hrun : Relation.ReflTransGen (Next resolve heap names author) w w') (d : Dev) (name : Name) :
    committed (w.nodes d).device.team name <+: committed (w'.nodes d).device.team name := by
  induction hrun with
  | refl => exact List.prefix_rfl
  | tail hbefore hnext ih =>
    obtain ⟨⟨D', hok⟩, -⟩ := run_ok h hnames hbefore
    obtain ⟨a, hpermitted, hstep⟩ := hnext
    exact ih.trans ((step_happened hok hnames hpermitted hstep).committed hok hnames d name)

def authored (author : Name → Dev) (w : World Path Dev) (name : Name) : List UInt8 :=
  committed (w.nodes (author name)).device.team name

omit [DecidableEq Path] [DecidableEq Dev] in
theorem authored_eq (h : WorldOk resolve heap names author D w) {name : Name}
    (hname : name ∈ names) :
    authored author w name = D name :=
  (h.nodes (author name)).device.team.own name hname rfl

theorem reachable_ok (hnames : Names resolve names) (h : Reachable resolve heap names author w) :
    ∃ D, WorldOk resolve heap names author D w :=
  (run_ok start_ok hnames (reachable_iff_run.mp h)).1

omit [DecidableEq Path] [DecidableEq Dev] in
theorem truthful_authored (h : WorldOk resolve heap names author D w)
    {key : List UInt8} {name : Name} {length : ℕ} (htruthful : Truthful names D key name length) :
    Truthful names (authored author w) key name length := by
  have heq := authored_eq h htruthful.file
  refine ⟨htruthful.file, htruthful.positive, ?_, ?_⟩
  · rw [heq]
    exact htruthful.within
  · rw [heq]
    exact htruthful.hash

end Runs

section Exchange

open MessageWrites (smallHeap)

def report : Name := List.replicate 15 0x61

theorem report_named : report ≠ [] := by decide

theorem report_names : Names id [report] where
  distinct a ha b hb hne := by
    rw [List.mem_singleton.mp ha, List.mem_singleton.mp hb] at hne
    exact absurd rfl hne
  named := by decide +kernel
  whole := by decide +kernel
  short := by decide +kernel
  noKey := by decide +kernel

def announcing : List (Action Bool) :=
  [.difference true false (syncKey (Sha256.hash (completeRecord [1, 2, 3]))) true,
    .deliver false true 0 true true, .deliver true false 1 true true,
      .deliver false true 2 true true,
    .write false 0 bodyRoom 2000]

theorem announcing_permitted {names : List Name} {author : Name → Bool} : ∀ a ∈ announcing,
    ∀ w : World Name Bool, Permitted smallHeap names author w a := by
  intro a ha w
  simp only [announcing, List.mem_cons, List.not_mem_nil, or_false] at ha
  rcases ha with rfl | rfl | rfl | rfl | rfl
  · rw [Permitted, syncKey, List.length_take, Sha256.length_hash]
    rfl
  · trivial
  · trivial
  · trivial
  · exact Nat.le_refl _

def announced : Option (World Name Bool) :=
  (step id smallHeap World.start (.record false report [1, 2, 3] true)).bind
    (steps id smallHeap announcing)

/-- The device true waits for the frame that is in flight, and then has the file. -/
theorem announced_eq :
    (announced.map fun w => (w.frames[3]?, slot (w.nodes true).device.team report,
      content (w.nodes true).device.team report,
      (step id smallHeap w (.deliver true false 3 true true)).map fun w' =>
        committed (w'.nodes true).device.team report)) =
    some (some (.fileBlockMessage,
      FileBlocks.header ⟨report, 0, 11, 0⟩ ++ completeRecord [1, 2, 3]),
      some ⟨0, 11, syncKey (Sha256.hash (completeRecord [1, 2, 3]))⟩, [],
      some (completeRecord [1, 2, 3])) := by
  decide +kernel

theorem exchange : ∃ w w' : World Name Bool, Reachable id smallHeap [report] (fun _ => false) w ∧
    w.frames[3]? = some (.fileBlockMessage,
      FileBlocks.header ⟨report, 0, 11, 0⟩ ++ completeRecord [1, 2, 3]) ∧
    slot (w.nodes true).device.team report =
      some ⟨0, 11, syncKey (Sha256.hash (completeRecord [1, 2, 3]))⟩ ∧
    content (w.nodes true).device.team report = [] ∧
    step id smallHeap w (.deliver true false 3 true true) = some w' ∧
    committed (w'.nodes true).device.team report = completeRecord [1, 2, 3] := by
  obtain ⟨w, hw, heq⟩ := Option.map_eq_some_iff.mp announced_eq
  obtain ⟨hframe, heq⟩ := Prod.mk.inj heq
  obtain ⟨hslot, heq⟩ := Prod.mk.inj heq
  obtain ⟨hcontent, heq⟩ := Prod.mk.inj heq
  obtain ⟨w', hstep, hcommitted⟩ := Option.map_eq_some_iff.mp heq
  obtain ⟨w₁, hrecord, hsteps⟩ := Option.bind_eq_some_iff.mp hw
  refine ⟨w, w', ?_, hframe, hslot, hcontent, hstep, hcommitted⟩
  have hfirst : Reachable id smallHeap [report] (fun _ => false) w₁ :=
    .step (.record false report [1, 2, 3] true) .start
      ⟨List.mem_singleton.mpr rfl, rfl, by decide⟩
      hrecord
  exact reachable_iff_run.mpr ((reachable_iff_run.mp hfirst).trans
    (steps_run announcing announcing_permitted hsteps))

end Exchange

section Results

open MessageWrites (smallHeap)

variable {Path Dev : Type} [DecidableEq Path] [DecidableEq Dev]
    {resolve : Name → Path} {heap : Heap}
  {names : List Name} {author : Name → Dev} {w w' : World Path Dev}

/-- Whatever the devices do, their files change as logs do that have one author
each. -/
theorem devices_refine_logs (hnames : Names resolve names)
    (h : Reachable resolve heap names author w)
    (hrun : Relation.ReflTransGen (Next resolve heap names author) w w') :
    Relation.ReflTransGen (AuthoredLogs.Step fun file : File names => author file)
      (logs heap names w) (logs heap names w') := by
  obtain ⟨D, hok⟩ := reachable_ok hnames h
  exact (run_ok hok hnames hrun).2

theorem devices_refine_logs_exchange : ∃ w w' : World Name Bool,
    Relation.ReflTransGen (AuthoredLogs.Step fun _ : File [report] => false)
      (logs smallHeap [report] w) (logs smallHeap [report] w') ∧
    content (w.nodes true).device.team report = [] ∧
    committed (w'.nodes true).device.team report = completeRecord [1, 2, 3] := by
  obtain ⟨w, w', hreachable, -, -, hcontent, hstep, hcommitted⟩ := exchange
  exact ⟨w, w', devices_refine_logs report_names hreachable (.single
    ⟨.deliver true false 3 true true, trivial, hstep⟩), hcontent, hcommitted⟩

/-- Of the bytes that two devices have of a file, those of one are a prefix of
those of the other, and of what its author has committed. -/
theorem replicas_agree (hnames : Names resolve names) (h : Reachable resolve heap names author w)
    (d e : Dev) {name : Name} (hname : name ∈ names) {s s' : Store}
    (hs : openFile resolve (w.nodes d).device.team name = some s)
    (hs' : openFile resolve (w.nodes e).device.team name = some s') :
    (s.disk.take s.appendOffset <+: s'.disk.take s'.appendOffset ∨
      s'.disk.take s'.appendOffset <+: s.disk.take s.appendOffset) ∧
    (author name = e → s.disk.take s.appendOffset <+: s'.disk.take s'.EOF) := by
  obtain ⟨D, hok⟩ := reachable_ok hnames h
  have hfollows := reachable_follows hnames h
  have hshows := openFile_shows (hok.nodes d).device.team.kept hname hs
  have hshows' := openFile_shows (hok.nodes e).device.team.kept hname hs'
  rw [hshows.read, hshows'.read, hshows'.bytes]
  refine ⟨hfollows.comparable d e ⟨name, hname⟩, ?_⟩
  rintro rfl
  have hsettled := (hok.nodes (author name)).device.team.author_settled hname rfl
  have hstarts := hfollows.content d ⟨name, hname⟩
  dsimp only [logs] at hstarts
  rw [content, content, hsettled.1, List.append_nil] at hstarts
  exact hstarts

theorem replicas_agree_exchange : ∃ (w : World Name Bool) (s s' : Store),
    openFile id (w.nodes true).device.team report = some s ∧
    openFile id (w.nodes false).device.team report = some s' ∧
    s.disk.take s.appendOffset <+: s'.disk.take s'.EOF := by
  obtain ⟨w, w', hreachable, -, -, -, hstep, -⟩ := exchange
  have hreachable' := Reachable.step (.deliver true false 3 true true) hreachable trivial hstep
  obtain ⟨s, hs⟩ := openFile_total id (w'.nodes true).device.team report_named
  obtain ⟨s', hs'⟩ := openFile_total id (w'.nodes false).device.team report_named
  exact ⟨w', s, s', hs, hs', (replicas_agree report_names hreachable' true false
    (List.mem_singleton.mpr rfl) hs hs').2 rfl⟩

/-- What a device has committed of a file it has in every world that comes after,
also when it was started again. -/
theorem committed_stays (hnames : Names resolve names) (h : Reachable resolve heap names author w)
    (hrun : Relation.ReflTransGen (Next resolve heap names author) w w') (d : Dev) {name : Name}
    (hname : name ∈ names) {s s' : Store}
    (hs : openFile resolve (w.nodes d).device.team name = some s)
    (hs' : openFile resolve (w'.nodes d).device.team name = some s') :
    s.disk.take s.EOF <+: s'.disk.take s'.EOF := by
  obtain ⟨D, hok⟩ := reachable_ok hnames h
  obtain ⟨⟨D', hok'⟩, -⟩ := run_ok hok hnames hrun
  rw [(openFile_shows (hok.nodes d).device.team.kept hname hs).bytes,
    (openFile_shows (hok'.nodes d).device.team.kept hname hs').bytes]
  exact run_committed hok hnames hrun d name

theorem committed_stays_exchange : ∃ (w w' : World Name Bool) (s s' : Store),
    openFile id (w.nodes true).device.team report = some s ∧
    openFile id (w'.nodes true).device.team report = some s' ∧
    s.disk.take s.EOF <+: s'.disk.take s'.EOF ∧
    w' = w.put true ⟨restart (w.nodes true).device, []⟩ := by
  obtain ⟨w, w', hreachable, -, -, -, hstep, -⟩ := exchange
  have hreachable' := Reachable.step (.deliver true false 3 true true) hreachable trivial hstep
  obtain ⟨s, hs⟩ := openFile_total id (w'.nodes true).device.team report_named
  obtain ⟨s', hs'⟩ := openFile_total id
    ((w'.put true ⟨restart (w'.nodes true).device, []⟩).nodes true).device.team report_named
  refine ⟨w', _, s, s', hs, hs',
    committed_stays report_names hreachable' (.single ⟨.restart true, trivial, ?_⟩)
    true (List.mem_singleton.mpr rfl) hs hs', rfl⟩
  rfl

/-- What a device knows of the files of others is true: the keys of its index,
the transfers that it lists for its peers, and those that have a slot. -/
theorem announced_true (hnames : Names resolve names)
    (h : Reachable resolve heap names author w) (d : Dev) :
    (∀ key version, (w.nodes d).device.team.state.db.index key = some version →
      Truthful names (authored author w) key version.name version.length) ∧
    (∀ p, ∀ x ∈ ((w.nodes d).device.peers p).possibleTransfers,
      TruthfulTransfer names (authored author w) x.filename x.transfer) ∧
    (∀ name x, slot (w.nodes d).device.team name = some x →
      TruthfulTransfer names (authored author w) name x) := by
  obtain ⟨D, hok⟩ := reachable_ok hnames h
  have htransfer : ∀ {name : Name} {x : PeerTransfer}, TruthfulTransfer names D name x →
      TruthfulTransfer names (authored author w) name x := by
    rintro name x ⟨length, hlength, htruthful⟩
    exact ⟨length, hlength, truthful_authored hok htruthful⟩
  have hdevice := (hok.nodes d).device
  refine ⟨?_, ?_, ?_⟩
  · exact fun key version hindex => truthful_authored hok (hdevice.team.index key version hindex)
  · exact fun p x hx => htransfer (hdevice.listed p x hx)
  · exact fun name x hx => htransfer (hdevice.team.held name x hx).1

theorem announced_true_exchange : ∃ w : World Name Bool,
    slot (w.nodes true).device.team report =
      some ⟨0, 11, syncKey (Sha256.hash (completeRecord [1, 2, 3]))⟩ ∧
    TruthfulTransfer [report] (authored (fun _ => false) w) report
      ⟨0, 11, syncKey (Sha256.hash (completeRecord [1, 2, 3]))⟩ := by
  obtain ⟨w, w', hreachable, -, hslot, -⟩ := exchange
  exact ⟨w, hslot, (announced_true report_names hreachable true).2.2 report _ hslot⟩

/-- A block that brings a file to the length of the transfer that has its slot
completes the transfer: the hash that was announced is the one of the bytes. -/
theorem transfer_completes (hnames : Names resolve names)
    (h : Reachable resolve heap names author w)
    {d p : Dev} {i : ℕ} {connected : Bool} {frame : Frame} {filename : Name} {offset : BitVec 64}
    {data rest : List UInt8} {x : PeerTransfer} (hframe : w.frames[i]? = some frame)
    (hread : create heap frame.1 frame.2 = (.ok (.fileBlock filename offset data), rest))
    (hslot : slot (w.nodes d).device.team filename = some x)
    (hstart : offset.toInt ≤ (content (w.nodes d).device.team filename).length)
    (hreach : max ((content (w.nodes d).device.team filename).length : ℤ)
      (offset.toInt + data.length) = x.newLength)
    (hstep : step resolve heap w (.deliver d p i connected true) = some w') :
    committed (w'.nodes d).device.team filename =
        (authored author w filename).take x.newLength.toNat ∧
      syncKey (Sha256.hash (committed (w'.nodes d).device.team filename)) = x.expectedHash := by
  obtain ⟨D, hok⟩ := reachable_ok hnames h
  have hgood := hok.frames frame (List.mem_of_getElem? hframe) _ _ hread
  have hteam := (hok.nodes d).device.team
  obtain ⟨f, hf, hstep⟩ := Option.bind_eq_some_iff.mp hstep
  obtain rfl := Option.some.inj (hframe.symm.trans hf)
  rw [hread] at hstep
  obtain ⟨o, hdata, heq⟩ := Option.bind_eq_some_iff.mp hstep
  obtain ⟨t, hcall, hmethod⟩ :=
    @processData_ok _ _ _ _ _ _ _ heap _ _ _ _ (hok.nodes d).device hnames
    hok.small p _ _ _ hgood connected true hdata
  obtain ⟨hname, k, hk, hwithin, hcut⟩ := hgood
  have hafter : committed (w'.nodes d).device.team filename = committed t filename := by
    rw [← Option.some.inj heq, ← hmethod.files.committed filename, World.after, World.put]
    dsimp only
    rw [Function.update_self]
  rw [hk] at hcall hstart hreach
  rw [hcut] at hcall
  obtain ⟨⟨length, hlength, htruthful⟩, -⟩ := hteam.held filename x hslot
  have hreach' : x.newLength = max (content (w.nodes d).device.team filename).length
    (k + data.length) := by
    rw [← hreach]
    norm_cast
  obtain ⟨hbytes, -⟩ := hteam.completes hnames hname (hok.small filename hname) hwithin hslot
    (by omega) hreach' hcall
  have htake : max (content (w.nodes d).device.team filename).length
    (k + data.length) = length := by
    omega
  rw [hafter, authored_eq hok hname, hbytes, htake, hlength]
  exact ⟨rfl, htruthful.hash.symm⟩

theorem transfer_completes_exchange : ∃ w w' : World Name Bool,
    slot (w.nodes true).device.team report =
      some ⟨0, 11, syncKey (Sha256.hash (completeRecord [1, 2, 3]))⟩ ∧
    committed (w'.nodes true).device.team report =
      (authored (fun _ => false) w report).take 11 := by
  obtain ⟨w, w', hreachable, hframe, hslot, hcontent, hstep, -⟩ := exchange
  have hread : create smallHeap .fileBlockMessage
      (FileBlocks.header ⟨report, 0, 11, 0⟩ ++ completeRecord [1, 2, 3]) =
      (.ok (.fileBlock report 0 (completeRecord [1, 2, 3])), []) :=
    block_read smallHeap (by decide +kernel) (by decide +kernel) (by decide +kernel)
  exact ⟨w, w', hslot, (transfer_completes report_names hreachable hframe hread hslot
    (by rw [hcontent]; decide +kernel) (by rw [hcontent]; decide +kernel) hstep).1⟩

end Results

end Succinct.SharedFiles
