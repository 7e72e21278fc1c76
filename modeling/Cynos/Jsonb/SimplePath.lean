import Cynos.Jsonb.PathParser

/-! Paths of fields and indexes only, which are followed on raw text. -/
namespace Cynos.Jsonb

open Core

inductive SimpleJsonPathSegment where
  | field (name : String)
  | index (position : Nat)
  deriving DecidableEq

structure SimpleJsonPath where
  segments : List SimpleJsonPathSegment
  deriving DecidableEq

namespace SimpleJsonPath

def collectSegments : JsonPath → Option (List SimpleJsonPathSegment)
  | .root => some []
  | .field parent name => do return (← collectSegments parent) ++ [.field name]
  | .index parent position => do return (← collectSegments parent) ++ [.index position]
  | .slice _ _ _ | .recursiveField _ _ | .wildcard _ | .filter _ _ => none

def fromJsonPath (path : JsonPath) : Option SimpleJsonPath := (collectSegments path).map mk

def parse (chars : CharClasses) (path : String) : Option SimpleJsonPath :=
  (JsonPath.parse chars path).toOption.bind fromJsonPath

end SimpleJsonPath

end Cynos.Jsonb
