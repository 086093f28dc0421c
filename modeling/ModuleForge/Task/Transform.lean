import ModuleForge.CommonJs.Lowering
import ModuleForge.Task

/-!
# The transformation of a module

The work of a task: the module in CommonJS form, with a strict mode directive where the target wants
one, and the modules that the result loads.
-/

namespace ModuleForge.Task

/-- The directive that switches to strict mode. -/
def strictDirective : String := "use strict"

/-- The first line of strict code. -/
def strictPrologue : String := "\"use strict\";\n"

/-- The directives at the start of the code already switch to strict mode. -/
def isStrict (code : String) : Bool :=
  let directives := (Token.scan code).takeWhile fun t => t.kind == .string || t.kind == .semicolon
  directives.any fun t => t.kind == .string && t.value == strictDirective

/-- **The transformation of a module.** A rejection names the path. -/
def transform (p : Payload) : Verdict :=
  match CommonJs.ofSource p.code with
  | .error .slice => .crashed
  | .error failure => .rejected (p.path ++ ": " ++ failure.message)
  | .ok code =>
    let code :=
      if p.target == .modern && p.settings.strictMode && !isStrict code then strictPrologue ++ code
      else code
    .output { code, dependencies := Dependency.ofTokens (Token.scan code) }

end ModuleForge.Task
