import DecodingProxy.Lib.Runs
import DecodingProxy.Tcp.ConnectionsToDomain

/-!
# The threads of `ConnectionsToDomain`

A step is a lock section, a call of the dictionary or of the pool, or what a thread does between
two of them. `GetOrCreateAsync`, `Return`, the watchdogs and `Kill` run at the same time, and the
connections to other domains take their numbers from the same counter.
-/

namespace DecodingProxy.Tcp
open DecodingProxy.Runtime DecodingProxy.Runs

/-- What a thread does next. -/
inductive Point
  | findHead
  | lockHead
  | tryRevive (r : EntryId)
  | cancel (r : EntryId) (c : ClientId)
  | tryAdd (r : EntryId) (c : ClientId)
  | create
  | connect (c : ClientId)
  | discard (c : ClientId)
  | containsKey (c : ClientId)
  | tryRemove (c : ClientId)
  | checkConnect (c : ClientId)
  | moveToStalled (c : ClientId)
  | init (r : EntryId) (c : ClientId)
  | append (r : EntryId) (c : ClientId)
  | watchdog (r : EntryId) (c : ClientId)
  | delay (token : SourceId) (r : EntryId) (c : ClientId)
  | removeFromChain (r : EntryId) (c : ClientId)
  | returnToPool (r : EntryId) (victim : Option ClientId)
  | clear (r : EntryId) (victim : Option ClientId)
  | kill (c : ClientId)
  deriving DecidableEq, Repr

/-- What the threads share. A client is one connection, numbered when it is created. -/
structure Domain where
  data : StalledConnections := {}
  activeConnections : List ClientId := []
  clients : List ClientId := []
  killed : List ClientId := []
  counterForId : ℕ := 0

structure DomainRun where
  domain : Domain := {}
  threads : List Point := []

/-- What is not up to the thread: whether the peer answers, and which free entry the pool gives. -/
structure Choice where
  connected : Bool := true
  pick : ℕ := 0
  deriving DecidableEq, Repr

inductive DomainCall
  | getOrCreate
  | giveBack (c : ClientId)
  | createElsewhere
  | move (i : ℕ) (choice : Choice)
  deriving DecidableEq, Repr

/-- The key is a `uint`. -/
def clientKey (c : ClientId) : ℕ := c % 2 ^ 32

namespace Domain

/-- `ContainsKey`. -/
def HasKey (s : Domain) (c : ClientId) : Prop :=
  ∃ active ∈ s.activeConnections, clientKey active = clientKey c

instance (s : Domain) (c : ClientId) : Decidable (s.HasKey c) := by unfold HasKey; infer_instance

/-- One step of a thread, with what becomes of it and of the tasks that it starts. -/
def advance (choice : Choice) (s : Domain) : Point → Except Halt (Domain × List Point)
  | .findHead => .ok (s, [if s.data.head = none then .create else .lockHead])
  | .lockHead => do
    let (r, data) ← s.data.takeHead
    .ok ({ s with data }, [.tryRevive r])
  | .tryRevive r =>
    match s.data.client r with
    | none => .error StalledConnections.nullReference
    | some c => .ok (s, if choice.connected then [.cancel r c] else [.kill c, .findHead])
  | .cancel r c => .ok ({ s with data := s.data.cancel r }, [.tryAdd r c])
  | .tryAdd r c =>
    -- the exception ends the call, and nobody has the connection
    if s.HasKey c then .ok (s, [])
    else .ok ({ s with activeConnections := c :: s.activeConnections }, [.returnToPool r none])
  | .create =>
    let c := s.counterForId + 1
    let s := { s with counterForId := c }
    if s.HasKey c then .ok (s, [])
    else
      .ok ({ s with activeConnections := c :: s.activeConnections, clients := c :: s.clients },
        [.connect c])
  | .connect c => .ok (s, if choice.connected then [] else [.discard c])
  | .discard c =>
    if c ∈ s.activeConnections then
      .ok ({ s with activeConnections := s.activeConnections.erase c }, [.kill c])
    else .ok (s, [.discard c])
  | .containsKey c => .ok (s, if s.HasKey c then [.tryRemove c] else [])
  | .tryRemove c =>
    if c ∈ s.activeConnections then
      .ok ({ s with activeConnections := s.activeConnections.erase c }, [.checkConnect c])
    else .ok (s, [.tryRemove c])
  | .checkConnect c => .ok (s, if choice.connected then [.moveToStalled c] else [.kill c])
  | .moveToStalled c =>
    let (r, data) := s.data.get choice.pick
    .ok ({ s with data }, [.watchdog r c, .init r c])
  | .init r c => .ok ({ s with data := s.data.init r c }, [.append r c])
  | .append r _ => do
    let data ← s.data.append r
    .ok ({ s with data }, [])
  | .watchdog r c => .ok (s, [.delay (s.data.entries r).cts r c])
  | .delay token r c => .ok (s, if token ∈ s.data.canceled then [] else [.removeFromChain r c])
  | .removeFromChain r c => do
    let data ← s.data.removeFromChain r
    .ok ({ s with data }, [.returnToPool r (some c)])
  | .returnToPool r victim => do
    let data ← s.data.returnToPool r
    .ok ({ s with data }, [.clear r victim])
  | .clear r victim => .ok ({ s with data := s.data.clear r }, victim.toList.map .kill)
  | .kill c => .ok ({ s with killed := c :: s.killed }, [])

end Domain

namespace Point

/-- The entry that the thread has for itself. -/
def entry : Point → List EntryId
  | tryRevive r | cancel r _ | tryAdd r _ | init r _ | append r _ | returnToPool r _ => [r]
  | _ => []

/-- The entry that the thread has given back and still has to clear. -/
def clearing : Point → List EntryId
  | clear r _ => [r]
  | _ => []

/-- The connection that the thread takes into the chain or out of it. -/
def stalling (data : StalledConnections) : Point → List ClientId
  | tryRevive r => (data.client r).toList
  | cancel _ c | tryAdd _ c | checkConnect c | moveToStalled c | init _ c | append _ c => [c]
  | _ => []

/-- The connection that the thread is about to kill. -/
def killing : Point → List ClientId
  | returnToPool _ victim | clear _ victim => victim.toList
  | kill c => [c]
  | _ => []

end Point

namespace DomainRun

def step (s : DomainRun) : DomainCall → Except Halt DomainRun
  | .getOrCreate => .ok { s with threads := s.threads ++ [.findHead] }
  | .giveBack c => .ok { s with threads := s.threads ++ [.containsKey c] }
  | .createElsewhere =>
    .ok { s with domain := { s.domain with counterForId := s.domain.counterForId + 1 } }
  | .move i choice =>
    match s.threads[i]? with
    | none => .ok s
    | some p => do
      let (domain, ps) ← s.domain.advance choice p
      .ok { domain, threads := s.threads.eraseIdx i ++ ps }

def handedOut (s : DomainRun) : List ClientId := s.domain.activeConnections

def stalled (s : DomainRun) : List ClientId :=
  s.domain.data.chain.filterMap s.domain.data.client ++
    s.threads.flatMap (Point.stalling s.domain.data)

def killed (s : DomainRun) : List ClientId := s.domain.killed ++ s.threads.flatMap Point.killing

/-- Every client is handed out, stalled or killed, and that once. -/
def Exclusive (s : DomainRun) : Prop :=
  ∀ c ∈ s.domain.clients, s.handedOut.count c + s.stalled.count c + s.killed.count c = 1

def CarefulAt (s : DomainRun) (choice : Choice) : Point → Prop
  | .lockHead => s.domain.data.head ≠ none
  | .tryAdd _ c => ¬ s.domain.HasKey c
  | .moveToStalled _ => (s.domain.data.get choice.pick).1 ∉ s.threads.flatMap Point.clearing
  | .removeFromChain r c => r ∈ s.domain.data.chain ∧ s.domain.data.client r = some c
  | _ => True

/-- The head that a thread saw is still there when it has the lock, a watchdog that times out
finds its entry in the chain with its client, no entry leaves the pool before it is cleared, and
no other connection that is in use has the key of one that is revived. -/
def Careful (s : DomainRun) : DomainCall → Prop
  | .move i choice => ∀ p ∈ s.threads[i]?, s.CarefulAt choice p
  | _ => True

instance (s : DomainRun) (choice : Choice) (p : Point) : Decidable (s.CarefulAt choice p) := by
  cases p <;> unfold CarefulAt <;> infer_instance

instance (s : DomainRun) (a : DomainCall) : Decidable (s.Careful a) := by
  cases a <;> unfold Careful <;> infer_instance

end DomainRun

end DecodingProxy.Tcp
