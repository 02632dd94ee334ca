import Crosswalk.Conversion

/-!
The conversions that are offered by name.
-/

namespace Crosswalk

structure Converter where
  name : String
  description : String
  conversion : Conversion
deriving Repr

namespace Converter

def scriptSettings : Settings := { maxInputLength := .int 200000, maxDepth := .int 20 }

def schemaSettings : Settings := { maxDepth := .int 64 }

def promptSettings : Settings := { maxInputLength := .int 200000 }

def all : List Converter := [
  { name := "ts-to-zod"
    description := "TypeScript interfaces and types to Zod schemas"
    conversion := { grammar := .typeScript, target := .zod, settings := scriptSettings } },
  { name := "ts-to-json-schema"
    description := "TypeScript interfaces and types to JSON Schema (draft-07)"
    conversion := { grammar := .typeScript, target := .jsonSchema, settings := scriptSettings } },
  { name := "json-schema-to-ts"
    description := "JSON Schema to TypeScript interfaces"
    conversion := { grammar := .jsonSchema, target := .typeScript, settings := schemaSettings } },
  { name := "json-schema-to-zod"
    description := "JSON Schema (including Pydantic model_json_schema output) to Zod schemas"
    conversion := { grammar := .jsonSchema, target := .zod, settings := schemaSettings } },
  { name := "openapi-to-zod"
    description := "OpenAPI 3 component schemas (JSON or YAML) to Zod schemas"
    conversion := { grammar := .openApi, target := .zod, settings := schemaSettings,
                    inline := true } },
  { name := "graphql-to-zod"
    description := "GraphQL SDL types to Zod schemas"
    conversion := { grammar := .graphQL, target := .zod } },
  { name := "graphql-to-trpc"
    description := "GraphQL SDL to a tRPC router with Zod inputs"
    conversion := { grammar := .graphQL, target := .trpc } },
  { name := "sql-to-prisma"
    description := "SQL CREATE TABLE statements to Prisma models"
    conversion := { grammar := .sql, target := .prisma } },
  { name := "sql-to-json-schema"
    description := "SQL CREATE TABLE statements to JSON Schema (draft-07)"
    conversion := { grammar := .sql, target := .jsonSchema } },
  { name := "sql-to-zod"
    description := "SQL CREATE TABLE statements to Zod schemas"
    conversion := { grammar := .sql, target := .zod } },
  { name := "trpc-to-openapi"
    description := "tRPC router procedures to an OpenAPI 3.1 document"
    conversion := { grammar := .zod, target := .openApi } },
  { name := "prisma-to-zod"
    description := "Prisma models and enums to Zod schemas with create-input schemas"
    conversion := { grammar := .prisma, target := .zodModel } },
  { name := "zod-to-prompt"
    description := "A Zod object schema to an LLM structured-output system prompt"
    conversion := { grammar := .zod, target := .prompt, settings := promptSettings,
                    inline := true } }]

def names : List String := all.map Converter.name

def find? (name : String) : Option Converter := all.find? fun c => c.name == name

def find (name : String) : Except Fault Converter :=
  match find? name with
  | some c => .ok c
  | none => .error (.invalid
      ("Unknown converter " ++ Text.quoted name ++ ". Available: " ++ ", ".intercalate names))

def withSettings (c : Converter) (s : Settings) : Converter :=
  { c with conversion := { c.conversion with settings := s } }

/-- Add a converter to others; its name must not be taken. -/
def register (c : Converter) (others : List Converter) : Except Fault (List Converter) :=
  if others.any fun o => o.name == c.name then
    .error (.invalid ("Converter " ++ c.name ++ " is already registered"))
  else .ok (others ++ [c])

end Converter

end Crosswalk
