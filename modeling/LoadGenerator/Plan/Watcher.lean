import LoadGenerator.Data.Edit
import LoadGenerator.Plan.Channel
import LoadGenerator.Plan.Loader

namespace LoadGenerator

/-- A listener has a message for each version at which it breaks down. -/
abbrev Listener := Nat → Option Bytes

structure Watcher (α : Type) where
  path : Bytes
  intervalMs : Int
  /-- When the file was last changed, as far as the watcher knows; none if it has not seen it. -/
  remembered : Option Int
  reloads : Nat
  channel : Channel (Plan α) Listener

inductive Finding where
  | unchanged
  | rejected
  | reloaded
  | broken (message : Bytes)
  deriving DecidableEq, Repr

namespace Watcher

variable {α : Type} [Scalar α]

def modified? (fs : Files) (path : Bytes) : Option Int := (fs.find? path).map (·.modified)

def create (fs : Files) (path : Bytes) (intervalMs : Int) (plan : Plan α) : Watcher α :=
  ⟨path, intervalMs, modified? fs path, 0, .ofPlan plan⟩

def rejection (path : Bytes) (e : ConfigError) : Notice :=
  .warning (utf8 "[Config] Reload of " ++ path ++ utf8 " rejected: " ++ e.text)

def warning (w : Bytes) : Notice := .warning (utf8 "[Config] Warning: " ++ w)

def reloaded (p : Plan α) : Notice :=
  .info (utf8 "[Config] Reloaded plan: " ++ p.load.describe)

def adopt (w : Watcher α) (l : LoadedPlan α) : Watcher α × Finding × List Notice :=
  let (channel, calls) := w.channel.publish l.plan
  let notices := l.warnings.map warning ++ [reloaded l.plan]
  match calls.findSome? fun a => a.listener a.version with
  | some message => ({ w with channel }, .broken message, notices)
  | none => ({ w with channel, reloads := w.reloads + 1 }, .reloaded, notices)

def poll (w : Watcher α) (fs : Files) : Watcher α × Finding × List Notice :=
  match modified? fs w.path with
  | none => (w, .unchanged, [])
  | some time =>
    if w.remembered = some time then (w, .unchanged, [])
    else
      let w := { w with remembered := some time }
      match PlanLoader.run (PlanLoader.ofFile fs w.path) with
      | (.error e, notices) => (w, .rejected, notices ++ [rejection w.path e])
      | (.ok l, notices) =>
        let (w, finding, more) := w.adopt l
        (w, finding, notices ++ more)

def isAnnounced (w : Watcher α) (fs : Files) : Bool :=
  (fs.resolve? (WrittenPath.folder w.path)).any fs.isFolder

def watching (path : Bytes) : Notice :=
  .info (utf8 "[Config] Watching " ++ path ++ utf8 " for changes")

def unwatchable (w : Watcher α) : Notice :=
  .warning (utf8 "[Config] Cannot watch " ++ WrittenPath.folder w.path ++
    utf8 " (No such file or directory), checking every " ++ Text.ofInt w.intervalMs ++ utf8 "ms")

def opening (w : Watcher α) (fs : Files) : List Notice :=
  watching w.path :: if w.isAnnounced fs then [] else [w.unwatchable]

def stopped (message : Bytes) : Notice :=
  .warning (utf8 "[Config] Watcher stopped: " ++ message)

structure Watched (α : Type) where
  watcher : Watcher α
  files : Files
  seen : List (Watcher α)
  notices : List Notice

/-- Whether the watcher looks at the file after a batch of edits: if one is announced, or after
every batch where nothing is announced. -/
def looks (w : Watcher α) (announced : Bool) (fs : Files) (batch : List Edit) : Bool :=
  !announced || (fs.resolve? w.path).any fun path => Edit.anyAnnounces path fs batch

def watch (announced : Bool) : Watcher α → Files → List (List Edit) → Watched α
  | w, fs, [] => ⟨w, fs, [], []⟩
  | w, fs, batch :: batches =>
    let fs' := Edit.applyAll fs batch
    let (w, finding, notices) :=
      if w.looks announced fs batch then w.poll fs' else (w, .unchanged, [])
    match finding with
    | .broken message => ⟨w, fs', [], notices ++ [stopped message]⟩
    | _ =>
      let rest := watch announced w fs' batches
      { rest with seen := w :: rest.seen, notices := notices ++ rest.notices }

end Watcher

end LoadGenerator
