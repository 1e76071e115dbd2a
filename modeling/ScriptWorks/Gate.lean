import ScriptWorks.Path.Basic

/-!
# The gate

Compilations of one target run one after another. A key has a lock as long as the table keeps it;
who comes for the key shares that lock and waits for it. The steps are atomic and may be taken in any
order by any number of callers; one that is not possible changes nothing.
-/

namespace ScriptWorks

/-- How far a caller has come through the gate. -/
inductive Gate.Phase where
  | waiting
  | held
  /-- The lock is given back and no longer shared; the table has not been looked after yet. -/
  | leaving
deriving DecidableEq, Inhabited

/-- A caller at the gate. -/
structure Gate.Ticket (τ : Type) where
  id : τ
  key : Path
  lock : Nat
  phase : Gate.Phase
deriving Inhabited

/-- Locks by key, and the callers in the order in which they came. -/
structure Gate (τ : Type) where
  table : List (Path × Nat) := []
  tickets : List (Gate.Ticket τ) := []
  nextLock : Nat := 0
deriving Inhabited

namespace Gate

variable {τ : Type} [DecidableEq τ]

/-- The lock that the table keeps for a key. -/
def lockOf? (g : Gate τ) (key : Path) : Option Nat := (g.table.find? (·.1.same key)).map (·.2)

def ticket? (g : Gate τ) (id : τ) : Option (Ticket τ) := g.tickets.find? (·.id = id)

/-- The callers that share a lock: who holds it, and who waits for it. -/
def queue (g : Gate τ) (lock : Nat) : List (Ticket τ) :=
  g.tickets.filter fun t => t.lock = lock && t.phase ≠ .leaving

def isShared (g : Gate τ) (lock : Nat) : Bool := !(g.queue lock).isEmpty

/-- Somebody holds the lock of the key, or is about to. -/
def isBusy (g : Gate τ) (key : Path) : Bool := (g.lockOf? key).any g.isShared

/-- The number of keys in the table. -/
def tracked (g : Gate τ) : Nat := g.table.length

def setPhase (g : Gate τ) (id : τ) (phase : Phase) : Gate τ :=
  { g with tickets := g.tickets.map fun t => if t.id = id then { t with phase } else t }

def removeTicket (g : Gate τ) (id : τ) : Gate τ :=
  { g with tickets := g.tickets.filter (·.id ≠ id) }

/-! ## Steps -/

/-- A caller comes for a key. It shares the lock that the table keeps, or brings one. -/
def join (g : Gate τ) (id : τ) (key : Path) : Gate τ :=
  match g.lockOf? key with
  | some lock => { g with tickets := g.tickets ++ [⟨id, key, lock, .waiting⟩] }
  | none =>
    { table := g.table ++ [(key, g.nextLock)]
      tickets := g.tickets ++ [⟨id, key, g.nextLock, .waiting⟩]
      nextLock := g.nextLock + 1 }

/-- Somebody holds the lock. -/
def isHeld (g : Gate τ) (lock : Nat) : Bool := (g.queue lock).any (·.phase = .held)

/-- The caller waits for a lock that is free. -/
def isReady (g : Gate τ) (t : Ticket τ) : Bool := t.phase = .waiting && !g.isHeld t.lock

/-- A free lock goes to one of those who wait for it. -/
def grant (g : Gate τ) (id : τ) : Gate τ :=
  if (g.ticket? id).any g.isReady then g.setPhase id .held else g

/-- A holder gives the lock back. -/
def release (g : Gate τ) (id : τ) : Gate τ :=
  if (g.ticket? id).any (·.phase = .held) then g.setPhase id .leaving else g

/-- Removes a key from the table unless its lock is shared. -/
def sweep (g : Gate τ) (key : Path) : Gate τ :=
  { g with table := g.table.filter fun (k, lock) => !k.same key || g.isShared lock }

/-- Who has given the lock back removes its key, unless somebody else shares the lock. -/
def forget (g : Gate τ) (id : τ) : Gate τ :=
  match g.ticket? id with
  | some t => if t.phase = .leaving then (g.removeTicket id).sweep t.key else g
  | none => g

/-- A waiting caller goes away. It does not look after the table. -/
def cancel (g : Gate τ) (id : τ) : Gate τ :=
  if (g.ticket? id).any (·.phase = .waiting) then g.removeTicket id else g

/-- A step of a caller. -/
inductive Step (τ : Type) where
  | join (id : τ) (key : Path)
  | grant (id : τ)
  | release (id : τ)
  | forget (id : τ)
  | cancel (id : τ)
deriving Inhabited

def step (g : Gate τ) : Step τ → Gate τ
  | .join id key => if (g.ticket? id).isSome then g else g.join id key
  | .grant id => g.grant id
  | .release id => g.release id
  | .forget id => g.forget id
  | .cancel id => g.cancel id

/-- The gate after steps. -/
def run (g : Gate τ) (steps : List (Step τ)) : Gate τ := steps.foldl step g

/-! ## Runs of steps -/

/-- The steps of a caller that goes away, whether it holds the lock or waits for it. -/
def leave (g : Gate τ) (id : τ) : Gate τ := g.run [.cancel id, .release id, .forget id]

/-- Gives the free locks away, each to the first who came for it. -/
def serve (g : Gate τ) : Gate τ := g.run (g.tickets.map (.grant ·.id))

/-- A caller comes, in place of one with the same name. -/
def acquire (g : Gate τ) (id : τ) (key : Path) : Gate τ := (g.leave id).step (.join id key)

end Gate

end ScriptWorks
