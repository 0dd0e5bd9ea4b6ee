import Flowscript.Memory
import Flowscript.Name

/-! # Care

Somebody answers for every value: a running call for those in its slots and for the copies it passes
on, and whoever holds it for a value with storage of its own. The machine keeps account of the values
that are in somebody's care. A value is taken into care when it has been constructed, and leaves it
when it ends or when its data is moved away. Taking a value twice, or losing one that is not in care,
is a fault.

Besides, the machine remembers what data inputs were given, with the values in care at that time, and
which references it was given back to data that nobody answers for any more.
-/
namespace Flowscript

/-- A value that somebody answers for: where it lies, and of what type it is. -/
structure Charge where
  place : Place
  type : TypeId
deriving DecidableEq, Repr

structure Care where
  /-- The values in care, the latest first. -/
  alive : List Charge := []
  /-- Values that were taken while in care, or lost while not in care. -/
  faults : List Charge := []
  /-- Values that were moved away by a call which then stopped answering for another one. -/
  strays : List Charge := []
deriving Inhabited, Repr

namespace Care

def take (c : Care) (v : Charge) : Care :=
  if v ∈ c.alive then { c with faults := v :: c.faults } else { c with alive := v :: c.alive }

/-- A value has ended, or its data has been moved away. -/
def lose (c : Care) (v : Charge) : Care :=
  if v ∈ c.alive then { c with alive := c.alive.erase v } else { c with faults := v :: c.faults }

/-- The data of a value has been moved away, and the call no longer answers for a charge. -/
def handOver (c : Care) (v : Charge) (released : Option Charge) : Care :=
  let c := c.lose v
  if released = some v then c else { c with strays := v :: c.strays }

def covers (c : Care) (place : Place) : Bool := c.alive.any (·.place.block == place.block)

end Care

/-- Data that an input of a type was given, and the values in care at that time. -/
structure Use where
  place : Place
  type : TypeId
  alive : List Charge
deriving DecidableEq, Repr

/-- What is remembered of the data that calls hand around. -/
structure Watch where
  /-- Data that inputs were given, the latest first. -/
  uses : List Use := []
  /-- References given back to data that no value in care has. -/
  dangling : List Place := []
deriving Inhabited, Repr

end Flowscript
