import LinuxServer.Library.Memory

/-!
# The shared-memory chat server: the parent

`ShmChat.cpp` forks one child per connection. The parent keeps the connections in `users[0..user_count)`
and, in the other direction, `sub_process[pid]`, the number of the connection a child serves. When a
child is reaped, the last entry of `users` is moved into its place.

A child is told its number once, when it is forked, and uses it for as long as it lives: messages of
its client go to the part of the shared memory that starts at `idx * BUFFER_SIZE`.

The handlers return the new tables and the system calls they make, in order. Addresses are left out,
since nothing reads them.
-/

namespace LinuxServer.Shm

open Library

def userLimit : Nat := 5

def bufferSize : Nat := 1024

def processLimit : Nat := 65536

/-- The record `client_data`. -/
structure ClientData where
  connfd : Nat
  pid : Nat
  pipefd : Nat × Nat
  deriving Repr, DecidableEq

/-- The system calls of the parent. `runChild` is the part of `fork` that happens in the child. -/
inductive Call where
  | runChild (pid idx : Nat)
  | close (fd : Nat)
  | addfd (fd : Nat)
  | delfd (fd : Nat)
  | refuse (fd : Nat)
  | kill (pid : Nat)
  deriving Repr, DecidableEq

structure Parent where
  users : Block ClientData
  subProcess : Block Int
  userCount : Nat
  terminate : Bool
  stopServer : Bool

/-- What happens at a listening-socket event: `accept` fails, or it returns a descriptor; then the
pair of descriptors of `socketpair`, and what `fork` returns, if they are called. -/
inductive Arrival where
  | failed
  | conn (connfd : Nat) (pipefd : Nat × Nat) (pid : Option Nat)
  deriving Repr, DecidableEq

namespace Parent

/-- The tables `main` starts with. The entries of `users` are not initialised. -/
def make : Parent where
  users := Block.fill userLimit { connfd := 0, pid := 0, pipefd := (0, 0) }
  subProcess := Block.fill processLimit (-1)
  userCount := 0
  terminate := false
  stopServer := false

def onAccept (p : Parent) : Arrival → Exec (Parent × List Call)
  | .failed => .ok (p, [])
  | .conn connfd pipefd pid =>
    if p.userCount ≥ userLimit then .ok (p, [.refuse connfd, .close connfd])
    else do
      let user ← p.users.read p.userCount
      let user := { user with connfd := connfd, pipefd := pipefd }
      let users ← p.users.write p.userCount user
      match pid with
      | none => return ({ p with users := users }, [.close connfd])
      | some pid =>
          let users ← users.write p.userCount { user with pid := pid }
          let subProcess ← p.subProcess.write pid p.userCount
          return ({ p with users := users, subProcess := subProcess, userCount := p.userCount + 1 },
            [.runChild pid p.userCount, .close connfd, .close pipefd.2, .addfd pipefd.1])

/-- The body of the `waitpid` loop. Without any users, `users[--user_count]` is out of bounds. -/
def reap (p : Parent) (pid : Nat) : Exec (Parent × List Call) := do
  let delUser ← p.subProcess.read pid
  let subProcess ← p.subProcess.write pid (-1)
  if delUser < 0 ∨ delUser > userLimit then return ({ p with subProcess := subProcess }, [])
  else
    let gone ← p.users.read delUser.toNat
    match p.userCount with
    | 0 => .error .outOfBounds
    | count + 1 =>
        let last ← p.users.read count
        let users ← p.users.write delUser.toNat last
        let moved ← users.read delUser.toNat
        let subProcess ← subProcess.write moved.pid delUser
        return ({ p with users := users, subProcess := subProcess, userCount := count },
          [.delfd gone.pipefd.1, .close gone.pipefd.1])

/-- The `waitpid` loop, given the children it reaps. -/
def reapAll (p : Parent) : List Nat → Exec (Parent × List Call)
  | [] => .ok (p, [])
  | pid :: pids => do
      let (p, calls) ← p.reap pid
      let (p, rest) ← p.reapAll pids
      return (p, calls ++ rest)

/-- `case SIGCHLD`. -/
def onChld (p : Parent) (pids : List Nat) : Exec (Parent × List Call) := do
  let (p, calls) ← p.reapAll pids
  return ({ p with stopServer := p.stopServer || (p.terminate && p.userCount == 0) }, calls)

/-- `case SIGTERM` and `case SIGINT`. -/
def onTerm (p : Parent) : Exec (Parent × List Call) :=
  if p.userCount == 0 then .ok ({ p with stopServer := true }, [])
  else do
    let kills ← (List.range p.userCount).mapM fun i => do
      let user ← p.users.read i
      return Call.kill user.pid
    return ({ p with terminate := true }, kills)

end Parent
end LinuxServer.Shm
