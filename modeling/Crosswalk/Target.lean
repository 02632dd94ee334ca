import Crosswalk.Target.Prisma
import Crosswalk.Target.Prompt
import Crosswalk.Target.Router
import Crosswalk.Target.TypeScript

/-!
The notations that output is written in: how each writes types, and how it prints a document.
-/

namespace Crosswalk

inductive Target where
  | zod | zodModel | trpc | typeScript | jsonSchema | openApi | prisma | prompt
deriving Repr, DecidableEq

namespace Target

def name : Target → String
  | zod => "zod"
  | zodModel => "zod-model"
  | trpc => "trpc"
  | typeScript => "typescript"
  | jsonSchema => "json-schema"
  | openApi => "openapi"
  | prisma => "prisma"
  | prompt => "prompt"

def all : List Target := [zod, zodModel, trpc, typeScript, jsonSchema, openApi, prisma, prompt]

def ofName? (s : String) : Option Target := all.find? fun t => t.name == s

/-- What a type is written as. -/
abbrev Expression : Target → Type
  | zod | zodModel | trpc | typeScript | prisma => String
  | jsonSchema | openApi => Value
  | prompt => PromptType

/-- `root` is the name of the declaration that is the document itself. -/
def renderer (t : Target) (indent : Indent) (root : Scalar) : Renderer t.Expression :=
  match t with
  | zod | trpc => Zod.renderer false indent
  | zodModel => Zod.renderer true indent
  | typeScript => TypeScript.renderer indent
  | jsonSchema => JsonSchema.renderer JsonSchema.definitionsStart root
  | openApi => JsonSchema.renderer Router.componentsStart root
  | prisma => Prisma.renderer indent
  | prompt => Prompt.renderer

def emit (t : Target) (s : Setting) (ds : List (MappedDeclaration t.Expression)) :
    Except Fault String :=
  match t, ds with
  | zod, ds => Zod.emit Zod.declarationLines s ds
  | zodModel, ds => Zod.emit Zod.modelLines s ds
  | trpc, ds => Router.emit s ds
  | typeScript, ds => TypeScript.emit ds
  | jsonSchema, ds => JsonSchema.emit ds
  | openApi, ds => Router.emitOpenApi ds
  | prisma, ds => Prisma.emit s ds
  | prompt, ds => Prompt.emit ds

/-- Declarations have to be printed after those they refer to. -/
def isOrdered : Target → Bool
  | zod | zodModel | trpc => true
  | _ => false

/-- The first declaration is the document itself. -/
def hasRoot : Target → Bool
  | jsonSchema => true
  | _ => false

/-- The output of a conversion that failed. -/
def placeholder : Target → String
  | jsonSchema | openApi => "\x7b\x7d"
  | _ => ""

end Target

end Crosswalk
