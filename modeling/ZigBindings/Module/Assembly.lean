import ZigBindings.Fault
import ZigBindings.Module.Header
import ZigBindings.Options

/-!
The module of a world: a comment, the imports, and a generic function that makes the exports from
an implementation. Every recorded export symbol is declared where it was filed.
-/

namespace ZigBindings.Module
open Zig

structure Contents where
  imports : Scope := .empty
  exports : Scope := .empty
  symbols : List (List String × String) := []
deriving Inhabited

/-- Fails at the first symbol that no header declares. -/
def checkExports (c : Contents) : Except Fault Unit := do
  let found := declaredIn c.exports
  c.symbols.forM fun (path, symbol) =>
    if found.contains (path, Name.escaped symbol) then pure ()
    else throw (.generation (.unreachableExport symbol) none)

/-- Refers to every public declaration below a type, so that all of them are analysed. -/
def verifyFunction : String := "verifyExports"

def verifyCode : List Char :=
  String.toList "
fn verifyExports(comptime T: type) void \x7b
    inline for (@typeInfo(T).@\"struct\".decls) |decl| \x7b
        const value = @field(T, decl.name);
        if (@TypeOf(value) == type) \x7b
            if (@typeInfo(value) == .@\"struct\") verifyExports(value);
        \x7d
    \x7d
\x7d
"

def headerComment (worldName : String) : List Char :=
  comment 0 ("Generated by wit2zig from world `" ++ worldName ++ "`.").toList ++
    comment 0 "Do not edit by hand.".toList

def exportsWrapper (o : Options) (exports : Scope) : List Char :=
  let w := o.width
  line 0 ("pub fn " ++ o.exportsType.display ++ "(comptime " ++ o.implParam.display ++
      ": type) type \x7b").toList ++
    line w "return struct \x7b".toList ++
    text (2 * w) (exports.render 0 w) ++
    ['\n'] ++
    line (2 * w) "comptime \x7b".toList ++
    line (3 * w) (verifyFunction ++ "(@This());").toList ++
    line (2 * w) "\x7d".toList ++
    line w "\x7d;".toList ++
    line 0 "\x7d".toList

def sections (o : Options) (worldName : String) (c : Contents) : List (List Char) :=
  (if o.header.isEmpty then [] else [headerComment worldName]) ++
    (if c.imports.isEmpty then [] else [text 0 (c.imports.render 0 o.width)]) ++
    (if c.exports.isEmpty then [] else [exportsWrapper o c.exports, text 0 verifyCode])

def assemble (o : Options) (worldName : String) (c : Contents) : Except Fault (List Char) := do
  checkExports c
  pure (Scope.joinSections (sections o worldName c))

end ZigBindings.Module
