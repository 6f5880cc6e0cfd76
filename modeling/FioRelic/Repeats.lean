import FioRelic.Identifiers

/-! Calls made twice. A client that does not know whether a call went through makes it
again; the upserts then find the row they wrote and leave everything as it is. -/
namespace FioRelic
open Relational

section Lookups
variable {t : TableName} {takes : List Int → Nat} {p : Row t → Bool} {s s' : DB}

end Lookups

section Again
variable {a : Audited} {s s' : DB} {p : Row a.table → Bool} {row : Int → Row a.table}
  {assign : Row a.table → Row a.table} {found : Option (Row a.table)} {takes : List Int → Nat} {v : Option Int}

end Again

namespace Call

end Call

section Upserts
variable {server : Server} {s s' : DB} {b v : Option Int}

end Upserts

end FioRelic
