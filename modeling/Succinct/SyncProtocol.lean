import Succinct.SyncKeys

/-!
Set reconciliation as sync_keys.cpp runs it between a party and one peer.
The callbacks a party makes are kept in a log, oldest first; storage.cpp
passes all four of them. A message is handed to the queue as the ten bytes
of its struct: the stored flag and minPrefixLen in the first byte, then
prefixLen, then the key.

Left out: the statistics of sync_state, which nothing reads.
-/
namespace Succinct.SyncProtocol

open SyncKeys

def NODE_CHILDREN : ℕ := 2

def MESSAGE_BYTES : ℕ := KEY_LEN + 2

inductive Callback where
  | has (key : SyncKey)
  | hasNot (key : SyncKey)
  | nowHas (key : SyncKey)
  | queueMessage (buff : List UInt8)
  deriving DecidableEq

structure PeerState where
  sendCount : ℕ
  recvCount : ℕ
  root : Node
  deriving DecidableEq

structure Party where
  root : Node
  peer : PeerState
  log : List Callback
  deriving DecidableEq

def Party.call (p : Party) (callback : Callback) : Party := { p with log := p.log ++ [callback] }

def messageBytes (m : KeyMessage) : List UInt8 :=
  UInt8.ofNat ((if m.stored then 0x80 else 0) + m.minPrefixLen % 0x80) ::
    UInt8.ofNat m.prefixLen :: List.ofFn m.key

def Party.queue (p : Party) (m : KeyMessage) : Party := p.call (.queueMessage (messageBytes m))

def leafMessage (key : SyncKey) : KeyMessage :=
  { minPrefixLen := 0, stored := false, prefixLen := KEY_LEN_BITS, key := key }

def addedLeaf (key : SyncKey) : Node → Option KeyMessage
  | .null => none
  | .mk m c0 c1 =>
    if m.prefixLen = KEY_LEN_BITS then (if m.key = key then some m else none)
    else (addedLeaf key c0).or (addedLeaf key c1)

def markStored (message : KeyMessage) : Node → Node
  | .null => .null
  | .mk m c0 c1 =>
    if m = message then .mk { m with stored := true } c0 c1
    else .mk m (markStored message c0) (markStored message c1)

def syncAddKey (p : Party) (key : SyncKey) : Option Party := do
  match ← findMessage p.root (leafMessage key) with
  | .mk m _ _ => some { p with root := markStored m p.root }
  | .null =>
    let root ← addKey p.root key true
    match ← findMessage p.peer.root (leafMessage key) with
    | .null => some { p with root := root }
    | .mk _ _ _ =>
      let peerRoot ← removeKey p.peer.root key
      some { p with root := root,
                    peer := { p.peer with root := peerRoot, recvCount := p.peer.recvCount - 1 } }

def syncRootMsg (p : Party) : List UInt8 :=
  match p.root with
  | .mk m _ _ => messageBytes m
  | .null => 0x80 :: UInt8.ofNat (KEY_LEN_BITS + 1) :: List.replicate KEY_LEN 0

def peerIsMissing (p : Party) (message : KeyMessage) (allowRemove : Bool) :
    Option (Bool × Party) := do
  match ← findMessage p.peer.root message with
  | .mk m _ _ =>
    if m.stored && allowRemove then
      let p := p.call (.nowHas message.key)
      let root ← removeKey p.peer.root message.key
      some
        (true, { p with peer := { p.peer with root := root, sendCount := p.peer.sendCount - 1 } })
    else some (false, p)
  | .null =>
    let root ← addKey p.peer.root message.key true
    let p := { p with peer := { p.peer with root := root, sendCount := p.peer.sendCount + 1 } }
    some (true, p.call (.hasNot message.key))

/-- All leaves below the node, except for those of one child, are told to
the peer unless it is known to lack them. -/
def peerMissingLeafNodes (allowRemove : Bool) : Node → ℕ → Party → Option Party
  | .null, _, _ => none
  | .mk m c0 c1, except, p =>
    if m.prefixLen = KEY_LEN_BITS then do
      let (missing, p) ← peerIsMissing p m allowRemove
      some (if missing then p.queue m else p)
    else do
      let p ← if 0 ≠ except ∧ c0 ≠ .null then peerMissingLeafNodes allowRemove c0 NODE_CHILDREN p
        else some p
      if 1 ≠ except ∧ c1 ≠ .null then peerMissingLeafNodes allowRemove c1 NODE_CHILDREN p
      else some p

def peerAddKey (p : Party) (message : KeyMessage) : Option Party :=
  if message.prefixLen ≠ KEY_LEN_BITS ∨ !message.stored then some p
  else do
    match ← findMessage p.peer.root message with
    | .mk _ _ _ => some p
    | .null =>
      let root ← addKey p.peer.root message.key false
      let leaf ← addedLeaf message.key root
      let p := { p with peer := { p.peer with root := root, recvCount := p.peer.recvCount + 1 } }
      some ((p.call (.has message.key)).queue leaf)

def peerHasReceivedAll : Node → Party → Option (ℕ × Party)
  | .null, p => some (0, p)
  | .mk m c0 c1, p =>
    if m.prefixLen = KEY_LEN_BITS then
      if m.stored then do
        let p := p.call (.nowHas m.key)
        let root ← removeKey p.peer.root m.key
        some
          (1, { p with peer := { p.peer with root := root, sendCount := p.peer.sendCount - 1 } })
      else some (0, p)
    else do
      let (n0, p) ← peerHasReceivedAll c0 p
      let (n1, p) ← peerHasReceivedAll c1 p
      some (n0 + n1, p)

/-- The walk of remove_differences; null stands for its NULL exits. -/
def differencesLoop (message : KeyMessage) : ℕ → Node → ℕ → Option Node
  | 0, _, _ => none
  | _ + 1, .null, _ => some .null
  | fuel + 1, .mk m c0 c1, prefixLen =>
    if prefixLen < message.prefixLen then
      if m.prefixLen = KEY_LEN_BITS ∧ cmpMessage message m then some (.mk m c0 c1)
      else if m.prefixLen = KEY_LEN_BITS ∧ message.prefixLen = KEY_LEN_BITS then some .null
      else do
        let childIndex ← syncGetBits prefixLen PREFIX_STEP_BITS message.key
        if prefixLen < m.prefixLen then
          let nodeIndex ← syncGetBits prefixLen PREFIX_STEP_BITS m.key
          if nodeIndex ≠ childIndex then some .null
          else differencesLoop message fuel (.mk m c0 c1) (prefixLen + PREFIX_STEP_BITS)
        else
          differencesLoop message fuel ((Node.mk m c0 c1).child childIndex)
            (prefixLen + PREFIX_STEP_BITS)
    else some (.mk m c0 c1)

/-- The matching peer node, or null, and the message without what is already
known of the peer. -/
def removeDifferences (peerRoot : Node) (message : KeyMessage) : Option (Node × KeyMessage) :=
  if peerRoot = .null ∨ !message.stored then some (.null, message)
  else do
    match ← differencesLoop message (KEY_LEN_BITS + 2) peerRoot 0 with
    | .null => some (.null, message)
    | .mk m c0 c1 =>
      if message.prefixLen < KEY_LEN_BITS then
        if m.prefixLen = message.prefixLen ∨ m.prefixLen = KEY_LEN_BITS then
          let message ← syncXor m.key message
          some (.mk m c0 c1, message)
        else
          let message ← xorChildren (.mk m c0 c1) message
          some (.mk m c0 c1, message)
      else some (.mk m c0 c1, message)

/-- The node of our tree that explains a difference, or null. -/
def testLoop (testMessage : KeyMessage) : ℕ → Node → ℕ → Option Node
  | 0, _, _ => none
  | _ + 1, .null, _ => some .null
  | fuel + 1, .mk m c0 c1, testPrefix =>
    if cmpMessage testMessage m then some (.mk m c0 c1)
    else if m.prefixLen = KEY_LEN_BITS then some .null
    else do
      let childIndex ← syncGetBits testPrefix PREFIX_STEP_BITS testMessage.key
      if testPrefix < m.prefixLen then
        let nodeIndex ← syncGetBits testPrefix PREFIX_STEP_BITS m.key
        if nodeIndex ≠ childIndex then some .null
        else testLoop testMessage fuel (.mk m c0 c1) (testPrefix + PREFIX_STEP_BITS)
      else
        testLoop testMessage fuel ((Node.mk m c0 c1).child childIndex)
          (testPrefix + PREFIX_STEP_BITS)

/-- Where the comparison of prefix bits with one of our nodes ends: at the
position of a mismatch, or behind the last position compared. -/
inductive Compared where
  | mismatch (prefixLen : ℕ)
  | match (prefixLen keyIndex : ℕ)

def compareLoop (peerMessage m : KeyMessage) : ℕ → ℕ → ℕ → Option Compared
  | 0, _, _ => none
  | fuel + 1, prefixLen, keyIndex =>
    if prefixLen < m.prefixLen ∧ prefixLen < peerMessage.prefixLen then do
      let existingIndex ← syncGetBits prefixLen PREFIX_STEP_BITS m.key
      if keyIndex ≠ existingIndex then some (.mismatch prefixLen)
      else
        let next := prefixLen + PREFIX_STEP_BITS
        let keyIndex ← syncGetBits next PREFIX_STEP_BITS peerMessage.key
        compareLoop peerMessage m fuel next keyIndex
    else some (.match prefixLen keyIndex)

def queueChild (p : Party) : Node → Party
  | .null => p
  | .mk m _ _ => p.queue m

def answerNode (p : Party) (peerMessage : KeyMessage) (isBlank : Bool) (m : KeyMessage)
    (c0 c1 : Node) (prefixLen : ℕ) : Option Party :=
  if isBlank then peerMissingLeafNodes true (.mk m c0 c1) NODE_CHILDREN p
  else if m.prefixLen > peerMessage.prefixLen then some (p.queue m)
  else do
    let testMessage ← syncXor m.key peerMessage
    match ← testLoop testMessage (KEY_LEN_BITS + 2) (.mk m c0 c1) prefixLen with
    | .mk tm t0 t1 => peerMissingLeafNodes true (.mk tm t0 t1) NODE_CHILDREN p
    | .null => some (queueChild (queueChild p c0) c1)

def answerMismatch (p : Party) (peerMessage m : KeyMessage) (c0 c1 : Node) (prefixLen : ℕ) :
    Option Party := do
  let p ← if prefixLen ≥ peerMessage.minPrefixLen ∧ peerMessage.stored then do
      let p ← peerMissingLeafNodes false (.mk m c0 c1) NODE_CHILDREN p
      some (if peerMessage.prefixLen ≠ KEY_LEN_BITS then p.queue m else p)
    else some p
  if peerMessage.prefixLen = KEY_LEN_BITS then peerAddKey p peerMessage else some p

def recvLoop (message peerMessage : KeyMessage) (peerNode : Node) (isBlank : Bool) :
    ℕ → Party → Node → ℕ → Option Party
  | 0, _, _, _ => none
  | _ + 1, _, .null, _ => none
  | fuel + 1, p, .mk m c0 c1, prefixLen =>
    if cmpMessage message m then
      if message.stored then (peerHasReceivedAll peerNode p).map Prod.snd
      else (peerIsMissing p m false).map Prod.snd
    else if cmpMessage peerMessage m then some p
    else if peerMessage.prefixLen ≤ prefixLen then
      answerNode p peerMessage isBlank m c0 c1 prefixLen
    else do
      let keyIndex ← syncGetBits prefixLen PREFIX_STEP_BITS peerMessage.key
      match ← compareLoop peerMessage m (KEY_LEN_BITS + 1) prefixLen keyIndex with
      | .mismatch prefixLen => answerMismatch p peerMessage m c0 c1 prefixLen
      | .match prefixLen keyIndex =>
        if message.prefixLen ≤ prefixLen then
          recvLoop message peerMessage peerNode isBlank fuel p (.mk m c0 c1) prefixLen
        else
          guard (prefixLen = m.prefixLen)
          let p ← if peerMessage.minPrefixLen ≤ m.prefixLen ∧ peerMessage.stored then
              peerMissingLeafNodes false (.mk m c0 c1) keyIndex p
            else some p
          match (Node.mk m c0 c1).child keyIndex with
          | .null =>
            -- otherwise the source follows children[i] with i past the array
            if peerMessage.prefixLen = KEY_LEN_BITS then peerAddKey p peerMessage else none
          | .mk cm d0 d1 =>
            recvLoop message peerMessage peerNode isBlank fuel p (.mk cm d0 d1)
              (prefixLen + PREFIX_STEP_BITS)

/-- No bit is set from the byte after the one in which the prefix ends. -/
def isBlank (m : KeyMessage) : Bool :=
  decide (∀ i : Fin 8, m.prefixLen / 8 + 1 ≤ i.val → m.key i = 0)

def recvKey (p : Party) (message : KeyMessage) : Option (ℤ × Party) :=
  if message.minPrefixLen > message.prefixLen ∨ message.prefixLen > KEY_LEN_BITS + 1 then
    some (-1, p)
  else if p.root = .null then do
    let p ← peerAddKey p message
    some (0, p)
  else if message.prefixLen = KEY_LEN_BITS + 1 then do
    let p ← peerMissingLeafNodes false p.root NODE_CHILDREN p
    some (0, p)
  else do
    let (peerNode, peerMessage) ← removeDifferences p.peer.root message
    let p ← recvLoop message peerMessage peerNode (isBlank peerMessage)
      (2 * KEY_LEN_BITS) p p.root 0
    some (0, p)

def parseMessage (buff : List UInt8) : KeyMessage :=
  { stored := decide (0x80 ≤ (buff.getD 0 0).toNat)
    minPrefixLen := (buff.getD 0 0).toNat % 0x80
    prefixLen := (buff.getD 1 0).toNat
    key := fun i => buff.getD (2 + i.val) 0 }

def recvMessages : ℕ → List UInt8 → Party → Option (ℤ × Party)
  | 0, _, p => some (0, p)
  | n + 1, buff, p => do
    let (ret, p) ← recvKey p (parseMessage buff)
    if ret = -1 then some (-1, p) else recvMessages n (buff.drop MESSAGE_BYTES) p

def syncRecvMessage (p : Party) (buff : List UInt8) : Option (ℤ × Party) :=
  if buff.length % MESSAGE_BYTES ≠ 0 then some (-1, p)
  else recvMessages (buff.length / MESSAGE_BYTES) buff p

end Succinct.SyncProtocol
