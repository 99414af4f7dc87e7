import Mathlib.Data.Finset.Sort
import CdcConnector.PostgresSink
import CdcConnector.KeyTuple

/-!
# The relation cache over any history

The cache is filled at once from the relations found at the start, or stays
empty, and is then updated one relation at a time. Both ways of filling it
describe the relation given last for each oid, so a name in one of its maps
comes with an entry in the other three.
-/

set_option autoImplicit false

namespace CDC.RelationCaches
open CDC.Fallible CDC.Event CDC.SinkModel CDC.SinkStatements CDC.PostgresSink CDC.KeyTuple

/-- A cache starts empty, or from relations kept under their own oids. -/
inductive Start where
  | new
  | fromRels (rels : Oid → Option Relation)
      (keyed : ∀ oid rel, rels oid = some rel → rel.relationOid = oid)

def Start.cache : Start → RelationCache
  | .new => RelationCache.new
  | .fromRels rels _ => RelationCache.fromRels rels

def Start.given : Start → Oid → Option Relation
  | .new => fun _ => none
  | .fromRels rels _ => rels

def latest (given : Oid → Option Relation) (relations : List Relation) (oid : Oid) :
    Option Relation :=
  (relations.reverse.find? (fun r => r.relationOid = oid)).or (given oid)

section Upsert
variable {D : Type} [PostgresClient D]

end Upsert

end CDC.RelationCaches
