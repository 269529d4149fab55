import WireFlow.Program
import WireFlow.Run.Interpreter
import WireFlow.Run.Staged

/-!
# Encoders and linking

An encoder is a routine ready to be called, whichever way it runs, with the
address of its frame's pointer map. Linking makes an encoder of a program. A
linker can be installed once; as long as none is, programs are interpreted.
-/

namespace WireFlow

open Wire (Buffer)

/-- How an encoder runs. -/
inductive Backend where
  | interpreted
  | staged
deriving DecidableEq

namespace Backend

def text : Backend → String
  | interpreted => "emulated"
  | staged => "native"

/-- The name in descriptions. -/
def title : Backend → String
  | interpreted => "Emulated"
  | staged => "Native"

end Backend

/-- A routine ready to be called. -/
structure Encoder where
  backend : Backend
  mapAddress : Address
  /-- Run with arguments and output, for at most a number of transitions. -/
  call : Nat → List UInt64 → Buffer → Run

namespace Encoder

/-- Backend and map address. -/
def description (e : Encoder) : String :=
  "Encoder \x7b backend: " ++ e.backend.title ++ ", stack_map: " ++ e.mapAddress.text ++ " \x7d"

end Encoder

namespace Program

/-- The encoder that interprets a program. -/
def interpreted (p : Program) : Encoder :=
  ⟨.interpreted, p.mapAddress, fun n args out => p.code.interpret n args out⟩

/-- The encoder that stages a program first. -/
def staged (p : Program) : Encoder :=
  let r := Staged.ofCode p.code
  ⟨.staged, p.mapAddress, fun n args out => Staged.run r args n (Staged.start r out)⟩

end Program

/-- A way to make encoders. -/
abbrev Linker := Program → Encoder

/-- Why a linker is not installed. -/
inductive LinkError where
  | alreadyInstalled
deriving DecidableEq

def LinkError.message : LinkError → String
  | alreadyInstalled => "A linker is already installed"

/-- The place for the one linker. -/
structure LinkerSlot where
  linker : Option Linker := none

namespace LinkerSlot

def isSet (s : LinkerSlot) : Bool := s.linker.isSome

/-- Install a linker. The first one stays. -/
def install (s : LinkerSlot) (l : Linker) : Except LinkError LinkerSlot :=
  match s.linker with
  | some _ => .error .alreadyInstalled
  | none => .ok ⟨some l⟩

/-- Make an encoder with the installed linker, or else an interpreted one. -/
def link (s : LinkerSlot) (p : Program) : Encoder :=
  match s.linker with
  | some l => l p
  | none => p.interpreted

end LinkerSlot

end WireFlow
