import Succinct.Messages

/-!
The server of stun/stun.c: a table of the addresses that were heard, and the
loop over it that answers one datagram. The loop looks for the slot of the
sender and puts the other senders of its port into the reply at the same
time. A slot without a sender holds zeros. Of a datagram the server reads its
first byte only; its socket is an IPv4 one, so every sender is of that family.

Left out: the socket and its errors, and what is printed.
-/
namespace Succinct.StunServer

structure SocketAddress where
  family : ℕ
  port : UInt16
  addr : Fin 4 → UInt8
  deriving DecidableEq

def AF_INET : ℕ := 2

structure Heard where
  time : ℤ
  addr : SocketAddress

def STUN_MSG : UInt8 := 8

def STUN_ADDRS : ℕ := 255

def unused : Heard := ⟨0, 0, 0, fun _ => 0⟩

def newHeard : List Heard := List.replicate STUN_ADDRS unused

structure Datagram where
  type : UInt8
  port : UInt16
  ip : Fin 4 → UInt8
  now : ℤ

def Datagram.addr (d : Datagram) : SocketAddress := ⟨AF_INET, d.port, d.ip⟩

def same (addr : SocketAddress) (h : Heard) : Bool :=
  decide (addr.family = h.addr.family ∧ addr.family = AF_INET ∧ addr.port = h.addr.port ∧
    addr.addr = h.addr.addr)

def recent (addr : SocketAddress) (now : ℤ) (h : Heard) : Bool :=
  decide (addr.port = h.addr.port ∧ now - h.time ≤ 10)

def entry (ip : Fin 4 → UInt8) : List UInt8 := 4 :: List.ofFn ip

/-- The loop over the slots: the one to store the sender in, and the reply
behind its first three bytes. The array of 1024 bytes is not a bound here. -/
def scan (addr : SocketAddress) (now : ℤ) :
    List Heard → ℕ → Option ℕ → List UInt8 → Option ℕ × List UInt8
  | [], _, found, buff => (found, buff)
  | h :: rest, i, found, buff =>
    if same addr h then scan addr now rest (i + 1) (some i) buff
    else if recent addr now h then scan addr now rest (i + 1) found (buff ++ entry h.addr.addr)
    else if found = none then scan addr now rest (i + 1) (some i) buff
    else scan addr now rest (i + 1) found buff

/-- The bytes that are sent, if there are any behind the first three. -/
def reply (body : List UInt8) : Option (List UInt8) :=
  let len := body.length
  if 0 < len then
    some (STUN_MSG :: UInt8.ofNat ((len <<< 8) &&& 0xff) :: UInt8.ofNat (len &&& 0xff) :: body)
  else none

def store (heard : List Heard) (found : Option ℕ) (d : Datagram) : List Heard :=
  match found with
  | some i => heard.set i ⟨d.now, d.addr⟩
  | none => heard

def receive (heard : List Heard) (d : Datagram) : List Heard × Option (List UInt8) :=
  if d.type = STUN_MSG then (heard, none)
  else
    let (found, body) := scan d.addr d.now heard 0 none []
    (store heard found d, reply body)

def run (heard : List Heard) (datagrams : List Datagram) : List Heard :=
  datagrams.foldl (fun heard d => (receive heard d).1) heard

def others (addr : SocketAddress) (now : ℤ) (heard : List Heard) : List Heard :=
  heard.filter fun h => !same addr h && recent addr now h

/-- The first slot that is neither the sender's nor of its port and recent. -/
def spare (addr : SocketAddress) (now : ℤ) (heard : List Heard) : Option Heard :=
  heard.find? fun h => !same addr h && !recent addr now h

section Loop

variable (addr : SocketAddress) (now : ℤ)

def FoundAfter (done : List Heard) : Option ℕ → Prop
  | none => ∀ h ∈ done, same addr h = false ∧ recent addr now h = true
  | some i => ∃ h, done[i]? = some h ∧
      (same addr h = true ∨ (∀ g ∈ done, same addr g = false) ∧ spare addr now done = some h)

variable {addr now}

theorem FoundAfter.next_same {done : List Heard} {h : Heard} (hsame : same addr h = true) :
    FoundAfter addr now (done ++ [h]) (some done.length) :=
  ⟨h, by simp, Or.inl hsame⟩

/-- A slot that is passed over changes nothing. -/
theorem FoundAfter.next_keep {done : List Heard} {h : Heard} {found : Option ℕ}
    (hdone : FoundAfter addr now done found) (hsame : same addr h = false)
    (hkeep : recent addr now h = true ∨ found ≠ none) :
    FoundAfter addr now (done ++ [h]) found := by
  cases found with
  | none =>
    have hrecent := hkeep.resolve_right (by simp)
    intro g hg
    rcases List.mem_append.mp hg with hg | hg
    · exact hdone g hg
    · rw [List.mem_singleton.mp hg]
      exact ⟨hsame, hrecent⟩
  | some i =>
    obtain ⟨g, hg, hcases⟩ := hdone
    refine ⟨g, ?_, hcases.imp_right ?_⟩
    · rw [List.getElem?_append_left (List.getElem?_eq_some_iff.mp hg).1]
      exact hg
    · rintro ⟨hnone, hspare⟩
      refine ⟨?_, ?_⟩
      · intro f hf
        rcases List.mem_append.mp hf with hf | hf
        · exact hnone f hf
        · rw [List.mem_singleton.mp hf]
          exact hsame
      · rw [spare, List.find?_append]
        exact Option.or_eq_some_iff.mpr (Or.inl hspare)

theorem FoundAfter.next_spare {done : List Heard} {h : Heard}
    (hdone : FoundAfter addr now done none) (hsame : same addr h = false)
    (hrecent : recent addr now h = false) :
    FoundAfter addr now (done ++ [h]) (some done.length) := by
  refine ⟨h, by simp, Or.inr ⟨?_, ?_⟩⟩
  · intro g hg
    rcases List.mem_append.mp hg with hg | hg
    · exact (hdone g hg).1
    · rw [List.mem_singleton.mp hg]
      exact hsame
  · have hnone : done.find? (fun h => !same addr h && !recent addr now h) = none := by
      rw [List.find?_eq_none]
      intro g hg
      simp [(hdone g hg).2]
    rw [spare, List.find?_append, hnone, Option.none_or, List.find?_singleton]
    simp [hsame, hrecent]

/-- The induction is on the slots that are left. -/
theorem scan_spec (done rest : List Heard) (found : Option ℕ) (buff : List UInt8)
    (hdone : FoundAfter addr now done found) :
    FoundAfter addr now (done ++ rest) (scan addr now rest done.length found buff).1 ∧
      (scan addr now rest done.length found buff).2 =
        buff ++ (others addr now rest).flatMap fun h => entry h.addr.addr := by
  induction rest generalizing done found buff with
  | nil =>
    rw [List.append_nil]
    exact ⟨hdone, (List.append_nil buff).symm⟩
  | cons h rest ih =>
    have hsplit : done ++ h :: rest = done ++ [h] ++ rest := by simp
    have hlength : (done ++ [h]).length = done.length + 1 := by simp
    have hnext : ∀ found' buff', FoundAfter addr now (done ++ [h]) found' →
        FoundAfter addr now (done ++ h :: rest)
            (scan addr now rest (done.length + 1) found' buff').1 ∧
          (scan addr now rest (done.length + 1) found' buff').2 =
            buff' ++ (others addr now rest).flatMap fun h => entry h.addr.addr := by
      intro found' buff' hfound
      rw [hsplit, ← hlength]
      exact ih (done ++ [h]) found' buff' hfound
    unfold scan others
    by_cases hsame : same addr h = true
    · rw [if_pos hsame, List.filter_cons_of_neg (by simp [hsame])]
      exact hnext _ _ (FoundAfter.next_same hsame)
    · have hother : same addr h = false := by simpa using hsame
      rw [if_neg hsame]
      by_cases hrecent : recent addr now h = true
      · rw [if_pos hrecent, List.filter_cons_of_pos (by simp [hother, hrecent]),
          List.flatMap_cons, ← List.append_assoc]
        exact hnext _ _ (hdone.next_keep hother (Or.inl hrecent))
      · have hold : recent addr now h = false := by simpa using hrecent
        rw [if_neg hrecent, List.filter_cons_of_neg (by simp [hold])]
        by_cases hfound : found = none
        · rw [if_pos hfound]
          subst hfound
          exact hnext _ _ (hdone.next_spare hother hold)
        · rw [if_neg hfound]
          exact hnext _ _ (hdone.next_keep hother (Or.inr hfound))

end Loop

/-- What a datagram that is answered does. -/
theorem receive_spec (heard : List Heard) (d : Datagram) (hd : d.type ≠ STUN_MSG) :
    ∃ found, FoundAfter d.addr d.now heard found ∧
      receive heard d = (store heard found d,
        reply ((others d.addr d.now heard).flatMap fun h => entry h.addr.addr)) := by
  obtain ⟨hfound, hbody⟩ := @scan_spec d.addr d.now [] heard none []
    (fun h hh => absurd hh List.not_mem_nil)
  refine ⟨_, hfound, ?_⟩
  rw [receive, if_neg hd]
  rw [List.nil_append] at hbody
  exact congrArg (fun body => (_, reply body)) hbody

end Succinct.StunServer
