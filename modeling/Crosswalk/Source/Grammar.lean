import Crosswalk.Source.GraphQL
import Crosswalk.Source.OpenApi
import Crosswalk.Source.Prisma
import Crosswalk.Source.Sql
import Crosswalk.Source.Zod

/-!
The notations that sources are written in. Each says how to find the declarations of a document and
how to classify one level of a type expression.
-/

namespace Crosswalk

inductive Grammar where
  | typeScript | jsonSchema | openApi | graphQL | sql | prisma | zod
deriving Repr, DecidableEq

namespace Grammar

def name : Grammar → String
  | typeScript => "typescript"
  | jsonSchema => "json-schema"
  | openApi => "openapi"
  | graphQL => "graphql"
  | sql => "sql"
  | prisma => "prisma"
  | zod => "zod"

def all : List Grammar := [typeScript, jsonSchema, openApi, graphQL, sql, prisma, zod]

def ofName? (s : String) : Option Grammar := all.find? fun g => g.name == s

/-- What a document in this notation is expected to hold. -/
def content : Grammar → String
  | typeScript => "TypeScript interfaces, types or enums"
  | jsonSchema => "JSON Schema definitions"
  | openApi => "OpenAPI component schemas"
  | graphQL => "GraphQL type, input, or enum definitions"
  | sql => "CREATE TABLE statements"
  | prisma => "Prisma models or enums"
  | zod => "tRPC procedures or Zod schemas"

/-- Notations whose raw types are nodes of a structured document. -/
def isStructured : Grammar → Bool
  | jsonSchema | openApi => true
  | _ => false

/-- The openers of the delimiters that nest. -/
def tracked : Grammar → List Char
  | typeScript | jsonSchema | openApi => everyOpener
  | _ => openersWithoutAngle

/-- What stands between the members of an object. -/
def separators : Grammar → List Char
  | typeScript => TypeScript.separators
  | graphQL => GraphQL.separators
  | zod => Zod.separators
  | _ => [';', '\n']

def extract : Grammar → List Char → Logged Diagnostic Document
  | typeScript => TypeScript.extract
  | jsonSchema => JsonSchema.extract
  | openApi => OpenApi.extract
  | graphQL => GraphQL.extract
  | sql => Sql.extract
  | prisma => Prisma.extract
  | zod => Zod.extract

/-- The node of a raw type in a structured document. -/
def nodeOf : Raw → Value
  | .node v => v
  | .text cs => .text (String.ofList cs)

def classify (g : Grammar) (scope : Scope) (raw : Raw) : Except Fault Shape :=
  match g with
  | typeScript => TypeScript.classify raw.asText
  | jsonSchema | openApi => JsonSchema.classify scope.rootName (nodeOf raw)
  | graphQL => .ok (GraphQL.classify scope.customScalars raw.asText)
  | sql => Sql.classify raw.asText
  | prisma => Prisma.classify raw.asText
  | zod => Zod.classify raw.asText

/-- The values of an enumeration, in source order. -/
def enumValues (g : Grammar) (body : Raw) : Except Fault (List Value) :=
  match g with
  | typeScript => TypeScript.enumValues body.asText
  | jsonSchema | openApi => JsonSchema.enumValues (nodeOf body)
  | graphQL => .ok (GraphQL.enumValues body.asText)
  | sql => Sql.literals body.asText
  | prisma => .ok (Prisma.enumValues body.asText)
  | zod => Zod.enumValues body.asText

/-- Read one member of an object. -/
def field (g : Grammar) (line : List Char) : Except Fault (Option Field) :=
  match g with
  | graphQL => GraphQL.field line
  | prisma => Prisma.field "" line
  | zod => Zod.field line
  | _ => .ok (Member.field? g.tracked line)

/-- The fields of a body and the type of its index signature. -/
def fields (g : Grammar) (body : List Char) : Except Fault (List Field × Option (List Char)) :=
  Member.readBody g.tracked g.separators g.field body

end Grammar

end Crosswalk
