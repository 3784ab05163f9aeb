import ZigBindings.Text.Blank
import ZigBindings.Text.Word

/-!
Names that the target language keeps for itself: its keywords, its primitive types and values, and
the integer types of every width.
-/

namespace ZigBindings.Name

def keywords : List String :=
  ["addrspace", "align", "allowzero", "and", "anyframe", "anytype", "asm", "async", "await",
   "break", "callconv", "catch", "comptime", "const", "continue", "defer", "else", "enum",
   "errdefer", "error", "export", "extern", "fn", "for", "if", "inline", "linksection", "noalias",
   "noinline", "nosuspend", "opaque", "or", "orelse", "packed", "pub", "resume", "return",
   "struct", "suspend", "switch", "test", "threadlocal", "try", "union", "unreachable",
   "usingnamespace", "var", "volatile", "while"]

def primitives : List String :=
  ["anyerror", "anyopaque", "bool", "c_char", "c_int", "c_long", "c_longdouble", "c_longlong",
   "c_short", "c_uint", "c_ulong", "c_ulonglong", "c_ushort", "comptime_float", "comptime_int",
   "f16", "f32", "f64", "f80", "f128", "false", "isize", "noreturn", "null", "true", "type",
   "undefined", "usize", "void"]

def isIntegerType : List Char → Bool
  | c :: d :: rest => (c == 'i' || c == 'u') && (d :: rest).all Text.isDigit
  | _ => false

def isReserved (name : List Char) : Bool :=
  keywords.contains (String.ofList name) || primitives.contains (String.ofList name) ||
    isIntegerType (Text.dropFinalBreak name)

end ZigBindings.Name
