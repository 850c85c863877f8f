import DecodingProxy.Runtime.BufferReader
import DecodingProxy.Runtime.NetworkStream

/-!
# `ServerForSocks5`: the choice of a method

The greeting is taken from one read. Of the methods only the first is looked at, and the server
never refuses in its protocol: it throws.
-/

namespace DecodingProxy.Socks
open DecodingProxy.Runtime DecodingProxy.Runtime.BufferReader

/-- `ESocksType.SOCKS5`. -/
def ESocksType.SOCKS5 : UInt8 := 5

/-- `EAuth.NoAuthRequired`. -/
def EAuth.noAuthRequired : UInt8 := 0x00

structure ClientGreetingsSocks5 where
  version : UInt8
  numberOfAuthMethods : UInt8
  deriving DecidableEq, Repr

def ClientGreetingsSocks5.toStructConsume :
    List UInt8 → Except Fault (ClientGreetingsSocks5 × List UInt8)
  | version :: numberOfAuthMethods :: slice => .ok ({ version, numberOfAuthMethods }, slice)
  | _ => .error (.raised .indexOutOfRange)

structure ServerChoice where
  version : UInt8
  cauth : UInt8
  deriving DecidableEq, Repr

def ServerChoice.bytes (c : ServerChoice) : List UInt8 := [c.version, c.cauth]

namespace ServerForSocks5

/-- The answer to what the first read gave. The names of the methods are put together for the
console, which throws when there are none. -/
def chooseMethod (mem : List UInt8) : Except Fault ServerChoice := do
  let (greet, slice) ← ClientGreetingsSocks5.toStructConsume mem
  let (methods, _) ← consume greet.numberOfAuthMethods.toNat slice
  match methods with
  | [] => .error (.raised .invalidOperation)
  | method :: _ =>
    if method ≠ EAuth.noAuthRequired then .error (.thrown .notImplemented "")
    else .ok { version := 5, cauth := method }

def bufferLength : ℕ := 2 ^ 20 * 4

/-- A connection after the negotiation: what it was sent, and the method it goes on with. -/
structure Negotiated where
  clientStream : NetworkStream
  sent : List UInt8
  method : Except Fault UInt8

/-- `HandleTcpClient` up to its second read. -/
def handleTcpClient (clientStream : NetworkStream) : Negotiated :=
  let (mem, clientStream) := clientStream.read bufferLength
  match chooseMethod mem with
  | .error fault => { clientStream, sent := [], method := .error fault }
  | .ok serverChoice =>
    { clientStream, sent := serverChoice.bytes, method := .ok serverChoice.cauth }

end ServerForSocks5

/-- A greeting that offers at least one method and no more than its number can count. -/
structure Greeting where
  methods : List UInt8
  nonempty : methods ≠ []
  counted : methods.length < 256
  deriving DecidableEq, Repr

namespace Greeting

def bytes (g : Greeting) : List UInt8 :=
  ESocksType.SOCKS5 :: UInt8.ofNat g.methods.length :: g.methods

@[simp] theorem length_bytes (g : Greeting) : g.bytes.length = g.methods.length + 2 := rfl

end Greeting

namespace ServerForSocks5

/-- What a server has to do with a greeting: go on without authentication when that is offered,
and say that there is no acceptable method when it is not. -/
structure Negotiates (g : Greeting) (n : Negotiated) : Prop where
  accepts : (n.method = .ok EAuth.noAuthRequired ∧ n.sent = [5, EAuth.noAuthRequired]) ↔
    EAuth.noAuthRequired ∈ g.methods
  refuses : EAuth.noAuthRequired ∉ g.methods → n.sent = [5, 0xFF]

/-- The first method is the one, and the first read brings all of the greeting. -/
def Lucky (g : Greeting) (readed : List UInt8) : Prop :=
  g.methods.head? = some EAuth.noAuthRequired ∧ g.bytes.length ≤ readed.length

instance (g : Greeting) (readed : List UInt8) : Decidable (Lucky g readed) :=
  inferInstanceAs (Decidable (_ ∧ _))

variable {g : Greeting} {mem rest : List UInt8}

/-- A read that brings less than the greeting is refused, by the struct or by the methods. -/
theorem chooseMethod_short (hmem : mem <+: g.bytes) (hshort : mem.length < g.bytes.length) :
    ∃ fault, chooseMethod mem = .error fault := by
  match mem, hmem, hshort with
  | [], _, _ => exact ⟨_, rfl⟩
  | [_], _, _ => exact ⟨_, rfl⟩
  | version :: count :: slice, hmem, hshort =>
    simp only [Greeting.bytes, List.cons_prefix_cons] at hmem
    obtain ⟨rfl, rfl, -⟩ := hmem
    have hcount : (UInt8.ofNat g.methods.length).toNat = g.methods.length := by
      simpa using g.counted
    have hslice : slice.length < g.methods.length := by simpa using hshort
    refine ⟨.raised .argumentOutOfRange, ?_⟩
    have hlong : ((slice.length : ℤ) < (g.methods.length : ℤ)) := by exact_mod_cast hslice
    simp [chooseMethod, ClientGreetingsSocks5.toStructConsume, consume, sliceTo, hcount, hlong,
      bind, Except.bind]

/-- On a whole greeting the answer rests on the first method, and not on what stands behind. -/
theorem chooseMethod_whole (g : Greeting) (rest : List UInt8) :
    chooseMethod (g.bytes ++ rest) =
      if g.methods.head? = some EAuth.noAuthRequired then
        .ok { version := 5, cauth := EAuth.noAuthRequired }
      else .error (.thrown .notImplemented "") := by
  have hcount : (UInt8.ofNat g.methods.length).toNat = g.methods.length := by
    simpa using g.counted
  have hconsume := consume_append g.methods rest
  match hg : g.methods, g.nonempty with
  | method :: methods, _ =>
    rw [hg] at hconsume hcount
    simp only [chooseMethod, Greeting.bytes, hg, List.cons_append,
      ClientGreetingsSocks5.toStructConsume, bind, Except.bind, hcount, List.head?_cons]
    rw [List.cons_append] at hconsume
    rw [hconsume]
    by_cases hm : method = EAuth.noAuthRequired <;> simp [hm]

/-- A server that threw has answered nothing, which is neither of the two. -/
theorem not_negotiates_error {clientStream : NetworkStream} {fault : Fault} :
    ¬ Negotiates g { clientStream, sent := [], method := .error fault } := by
  rintro ⟨haccepts, hrefuses⟩
  by_cases hmem : EAuth.noAuthRequired ∈ g.methods
  · obtain ⟨hmethod, -⟩ := haccepts.mpr hmem
    cases hmethod
  · cases hrefuses hmem

theorem negotiates_accepted (hhead : g.methods.head? = some EAuth.noAuthRequired)
    (clientStream : NetworkStream) :
    Negotiates g {
      clientStream, sent := [5, EAuth.noAuthRequired], method := .ok EAuth.noAuthRequired } := by
  have hmem : EAuth.noAuthRequired ∈ g.methods := List.mem_of_mem_head? hhead
  exact ⟨⟨fun _ => hmem, fun _ => ⟨rfl, rfl⟩⟩, fun hnot => absurd hmem hnot⟩

/-- What the first read brings of a stream that starts with the greeting. -/
theorem readed_cases {clientStream : NetworkStream} (h : clientStream.bytes = g.bytes ++ rest) :
    ((clientStream.read bufferLength).1 <+: g.bytes ∧
        (clientStream.read bufferLength).1.length < g.bytes.length) ∨
      ∃ rest', (clientStream.read bufferLength).1 = g.bytes ++ rest' := by
  have hfront := NetworkStream.read_front bufferLength clientStream
  have hgreeting : g.bytes <+: clientStream.bytes := h ▸ List.prefix_append _ _
  rcases Nat.lt_or_ge (clientStream.read bufferLength).1.length g.bytes.length with hlt | hle
  · exact .inl ⟨List.prefix_of_prefix_length_le hfront hgreeting hlt.le, hlt⟩
  · obtain ⟨rest', hrest⟩ := List.prefix_of_prefix_length_le hgreeting hfront hle
    exact .inr ⟨rest', hrest.symm⟩

/-- The buffer holds every greeting, so only the piece can be too short. -/
theorem whole_iff (g : Greeting) (clientStream : NetworkStream) :
    g.bytes.length ≤ (clientStream.read bufferLength).1.length ↔
      g.bytes.length ≤ (clientStream.pieces.headD []).length := by
  have hcounted := g.counted
  rw [NetworkStream.read_fst, List.length_take, Greeting.length_bytes]
  unfold bufferLength
  omega

/-- The negotiation is right exactly when the method is the first one offered and the first piece
holds the whole greeting. -/
theorem negotiates_iff (g : Greeting) (rest : List UInt8) (clientStream : NetworkStream)
    (h : clientStream.bytes = g.bytes ++ rest) :
    Negotiates g (handleTcpClient clientStream) ↔ Lucky g (clientStream.pieces.headD []) := by
  unfold Lucky
  rw [← whole_iff]
  obtain ⟨hfront, hshort⟩ | ⟨rest', hwhole⟩ := readed_cases h
  · obtain ⟨fault, hfault⟩ := chooseMethod_short hfront hshort
    have hnot : ¬ Negotiates g (handleTcpClient clientStream) := by
      simp only [handleTcpClient, hfault]
      exact not_negotiates_error
    exact iff_of_false hnot fun ⟨_, hle⟩ => absurd hle hshort.not_ge
  · have hlen : g.bytes.length ≤ (clientStream.read bufferLength).1.length := by simp [hwhole]
    have hchoice := chooseMethod_whole g rest'
    rw [← hwhole] at hchoice
    simp only [handleTcpClient, hchoice]
    by_cases hhead : g.methods.head? = some EAuth.noAuthRequired
    · rw [if_pos hhead]
      exact iff_of_true (negotiates_accepted hhead _) ⟨hhead, hlen⟩
    · rw [if_neg hhead]
      exact iff_of_false not_negotiates_error fun hlucky => hhead hlucky.1

/-- Two methods, and the greeting in one piece. -/
def twoMethods : Greeting := ⟨[0, 1], by decide, by decide⟩

theorem negotiates_iff_twoMethods :
    Negotiates twoMethods (handleTcpClient ⟨[[5, 2, 0, 1]], by decide⟩) ↔
      Lucky twoMethods [5, 2, 0, 1] :=
  negotiates_iff twoMethods [] ⟨[[5, 2, 0, 1]], by decide⟩ (by decide)

/-- The same methods the other way round. -/
def otherOrder : Greeting := ⟨[1, 0], by decide, by decide⟩

theorem not_negotiates :
    ¬ ∀ (g : Greeting) (rest : List UInt8) (clientStream : NetworkStream),
      clientStream.bytes = g.bytes ++ rest → Negotiates g (handleTcpClient clientStream) := by
  intro h
  have hgreeting := h otherOrder [] ⟨[[5, 2, 1, 0]], by decide⟩ (by decide)
  obtain ⟨hmethod, -⟩ := hgreeting.accepts.mpr (by decide)
  cases hmethod

end ServerForSocks5

end DecodingProxy.Socks
