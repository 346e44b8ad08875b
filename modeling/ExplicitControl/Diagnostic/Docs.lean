import ExplicitControl.Diagnostic.Code

/-!
What is explained about each error code, in Markdown.
-/

namespace ExplicitControl.ErrorCode

def ofLines (lines : List String) : String :=
  String.join (lines.map fun line => line ++ "\n")

def e7001Doc : String :=
  ofLines [
    "# E7001: Redeclaration",
    "",
    "A name was declared twice in the same block.",
    "",
    "```js",
    "let x = 1;",
    "let x = 2; // error",
    "```",
    "",
    "Each block introduces one scope; a name may be declared once per scope.",
    "Declare it in an inner block, or assign instead of redeclaring:",
    "",
    "```js",
    "let x = 1;",
    "x = 2;",
    "```"]

def e7002Doc : String :=
  ofLines [
    "# E7002: Uninitialized Access",
    "",
    "A `let` or `const` binding was read or assigned before its declaration",
    "statement ran. Between entering a block and executing the declaration the",
    "name is in its *temporal dead zone*.",
    "",
    "```js",
    "const y = 1;",
    "\x7b",
    "    display(y); // error: inner `y` shadows the outer one but is not yet initialized",
    "    const y = 2;",
    "\x7d",
    "```",
    "",
    "The inner declaration shadows the outer one for the whole block, not only",
    "after the declaration line. Move the use after the declaration or rename",
    "the inner binding."]

def e7003Doc : String :=
  ofLines [
    "# E7003: Undefined Variable",
    "",
    "A name was used that is not declared in any enclosing scope, and is not",
    "a builtin.",
    "",
    "```js",
    "display(undeclared); // error",
    "```",
    "",
    "Check the spelling, or declare the name with `let` or `const`."]

def e7004Doc : String :=
  ofLines [
    "# E7004: Assignment to Constant",
    "",
    "A `const` binding (or a function declaration, which binds like a `const`)",
    "was assigned after initialization.",
    "",
    "```js",
    "const k = 1;",
    "k = 2; // error",
    "```",
    "",
    "Declare the name with `let` if it needs to change."]

def e7101Doc : String :=
  ofLines [
    "# E7101: Unary Type Mismatch",
    "",
    "`!` expects a boolean and unary `-` expects a number.",
    "",
    "```js",
    "!1;     // error: expected boolean",
    "-\"a\";   // error: expected number",
    "```"]

def e7102Doc : String :=
  ofLines [
    "# E7102: Binary Type Mismatch",
    "",
    "Arithmetic and comparison operators require matching operand types:",
    "",
    "| Operator | Operands |",
    "|----------|----------|",
    "| `+` | two numbers or two strings |",
    "| `-` `*` `/` `%` | two numbers |",
    "| `<` `<=` `>` `>=` | two numbers or two strings |",
    "| `===` `!==` | any |",
    "",
    "```js",
    "1 + \"a\"; // error: expected number on the right",
    "```",
    "",
    "The diagnostic names the offending side (left or right)."]

def e7103Doc : String :=
  ofLines [
    "# E7103: Logical Type Mismatch",
    "",
    "The left operand of `&&` or `||` must be a boolean.",
    "",
    "```js",
    "1 && true; // error",
    "```"]

def e7104Doc : String :=
  ofLines [
    "# E7104: Non-Boolean Condition",
    "",
    "Conditions of `if`, `while`, `for` and `?:` must evaluate to a boolean.",
    "",
    "```js",
    "if (1) \x7b \x7d     // error",
    "while (\"x\") \x7b \x7d // error",
    "```",
    "",
    "Compare explicitly, e.g. `if (n !== 0)`."]

def e7105Doc : String :=
  ofLines [
    "# E7105: Member Type Mismatch",
    "",
    "Indexing requires an array with a non-negative integer index, or an",
    "object with a string key.",
    "",
    "```js",
    "const a = [1, 2];",
    "a[\"x\"];   // error: array index must be a non-negative integer",
    "(5)[0];   // error: expected array or object",
    "```"]

def e7201Doc : String :=
  ofLines [
    "# E7201: Arity Mismatch",
    "",
    "A function was called with the wrong number of arguments. Arguments are",
    "never silently dropped or padded with `undefined`.",
    "",
    "```js",
    "function f(a, b) \x7b return a + b; \x7d",
    "f(1); // error: expected 2 arguments, found 1",
    "```"]

def e7202Doc : String :=
  ofLines [
    "# E7202: Not Callable",
    "",
    "A call expression evaluated its callee to something that is not a",
    "function.",
    "",
    "```js",
    "const x = 1;",
    "x(); // error",
    "```"]

def e7203Doc : String :=
  ofLines [
    "# E7203: Control Outside Loop",
    "",
    "`break` or `continue` was executed with no enclosing loop in the current",
    "function.",
    "",
    "```js",
    "function f() \x7b break; \x7d // error when f is called",
    "```"]

def e7204Doc : String :=
  ofLines [
    "# E7204: Host Function Failure",
    "",
    "A builtin function reported an error. The diagnostic points at the call",
    "expression that invoked it.",
    "",
    "```js",
    "error(\"boom\"); // error: boom",
    "```"]

def e7301Doc : String :=
  ofLines [
    "# E7301: Maximum Call Depth Exceeded",
    "",
    "Non-tail recursion exceeded the configured call depth. The diagnostic",
    "keeps the most recent calls with their arguments; `--verbose` prints them:",
    "",
    "```text",
    "error[E7301]: maximum call depth (10000) exceeded",
    "  --> main.js:2:21: this call exceeded the limit",
    "  = in f(9997) at main.js:2:21",
    "  = in f(9998) at main.js:2:21",
    "  = in f(9999) at main.js:2:21",
    "```",
    "",
    "Calls in tail position (`return f(x - 1)` or an arrow body `f(x - 1)`)",
    "do not grow the call depth. Rewrite the recursion with an accumulator:",
    "",
    "```js",
    "function sum(n, acc) \x7b",
    "    if (n === 0) \x7b",
    "        return acc;",
    "    \x7d",
    "    return sum(n - 1, acc + n);",
    "\x7d",
    "```",
    "",
    "The limit can be raised with `--max-depth`."]

def e7302Doc : String :=
  ofLines [
    "# E7302: Execution Limit Exceeded",
    "",
    "The program ran longer than the configured step budget (`--steps`) or",
    "wall-clock limit (`--timeout-ms`). This usually means an infinite loop."]

def e9001Doc : String :=
  ofLines [
    "# E9001: Internal Evaluator Error",
    "",
    "The machine reached a state that a well-formed syntax tree cannot",
    "produce (for example, a value stack underflow). Please report the input",
    "that triggered it."]

def doc : ErrorCode → String
  | e7001 => e7001Doc
  | e7002 => e7002Doc
  | e7003 => e7003Doc
  | e7004 => e7004Doc
  | e7101 => e7101Doc
  | e7102 => e7102Doc
  | e7103 => e7103Doc
  | e7104 => e7104Doc
  | e7105 => e7105Doc
  | e7201 => e7201Doc
  | e7202 => e7202Doc
  | e7203 => e7203Doc
  | e7204 => e7204Doc
  | e7301 => e7301Doc
  | e7302 => e7302Doc
  | e9001 => e9001Doc

def documented : List ErrorCode := all

end ExplicitControl.ErrorCode
