import Flowscript.Run.Execute

/-! # Workspaces

A catalogue of types, the bodies of script functions and the machine that runs them. Changes of the
catalogue are noted in the machine's journal.
-/
namespace Flowscript

/-- Everything a host works with. -/
structure Workspace where
  context : Context := {}
  machine : Machine := {}

namespace Workspace

def catalogue (w : Workspace) : Catalogue := w.context.catalogue

def setCatalogue (w : Workspace) (c : Catalogue) : Workspace := { w with context.catalogue := c }

def exec {ε α : Type} (w : Workspace) (x : Exec ε α) : Except ε α × Workspace :=
  let { context, machine } := w
  match x context machine with
  | .ok a machine => (.ok a, { context, machine })
  | .error e machine => (.error e, { context, machine })

def note (w : Workspace) (severity : Severity) (message : String) (fields : List (String × Json)) :
    Workspace :=
  match w.context.traceLimit with
  | some limit =>
    if severity.reaches limit then
      { w with machine.journal := .traced ⟨severity, message, fields⟩ :: w.machine.journal }
    else w
  | none => w

def typeFields (name : String) (id : TypeId) : List (String × Json) :=
  [("type_name", .str name), ("type_id", .str id.text)]

def register (w : Workspace) (t : TypeInfo) : Handle × Workspace :=
  let fresh := !w.catalogue.contains t.id
  let (h, c) := w.catalogue.register t
  let w := w.setCatalogue c
  (h, if fresh then w.note .debug "Registered type" (typeFields t.name t.id) else w)

def remove (w : Workspace) (id : TypeId) : Option TypeInfo × Workspace :=
  match w.catalogue.remove id with
  | (none, _) => (none, w)
  | (some t, c) => (some t, (w.setCatalogue c).note .debug "Removed type" (typeFields t.name id))

/-- Removes types one by one; how many were removed. -/
def removeAll (w : Workspace) (ids : List TypeId) : Nat × Workspace :=
  ids.foldl (fun (n, w) id =>
    match w.remove id with
    | (some _, w) => (n + 1, w)
    | (none, w) => (n, w)) (0, w)

/-- Removes every type that a script declared; how many were removed. -/
def removeScripted (w : Workspace) : Nat × Workspace :=
  w.removeAll ((w.catalogue.registered.filter fun (_, h) => (w.catalogue.info h).isScripted).map (·.1))

def addFunction (w : Workspace) (h : Handle) (f : Function) : Workspace :=
  w.setCatalogue (w.catalogue.modify h (·.addFunction f))

def execOn {ε α : Type} (w : Workspace) (seat : Seat) (x : Exec ε α) : Except ε α × Workspace :=
  let before := w.machine.current
  let (outcome, w) := { w with machine.current := some seat }.exec x
  (outcome, { w with machine.current := before })

end Workspace

end Flowscript
