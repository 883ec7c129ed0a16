/-!
The gallery: small programs, each of which shows one feature of the language at work.
-/

namespace Stepwise

/-- A program of the gallery. -/
structure Exhibit where
  id : String
  title : String
  description : String
  /-- its source text, line by line -/
  lines : List String
  deriving DecidableEq, Repr

namespace Exhibit

def code (e : Exhibit) : String := "\n".intercalate e.lines

def closure : Exhibit where
  id := "closure"
  title := "Closure"
  description :=
    "Demonstrates how a function retains access to variables from its outer scope."
  lines := [
    "function outer() \x7b",
    "  let count = 0;",
    "  function inner() \x7b",
    "    count++;",
    "    return count;",
    "  \x7d",
    "  return inner;",
    "\x7d",
    "",
    "const counter = outer();",
    "console.log(counter()); // 1",
    "console.log(counter()); // 2",
    "console.log(counter()); // 3"]

def eventLoop : Exhibit where
  id := "event-loop"
  title := "Event Loop (setTimeout)"
  description :=
    "Visualizes how setTimeout callbacks are handled by the Task Queue."
  lines := [
    "console.log('Start');",
    "",
    "setTimeout(() => \x7b",
    "  console.log('Timeout callback');",
    "\x7d, 0);",
    "",
    "console.log('End');"]

def hoisting : Exhibit where
  id := "hoisting"
  title := "Hoisting"
  description :=
    "Shows the difference between var, let, and const hoisting behavior."
  lines := [
    "console.log(x); // undefined",
    "var x = 5;",
    "",
    "// console.log(y); // ReferenceError",
    "let y = 10;",
    "",
    "function test() \x7b",
    "  console.log('Function hoisted');",
    "\x7d",
    "test();"]

def scopeChain : Exhibit where
  id := "scope-chain"
  title := "Scope Chain"
  description :=
    "Visualizes how variables are looked up through the scope chain."
  lines := [
    "const globalVar = 'Global';",
    "",
    "function outer() \x7b",
    "  const outerVar = 'Outer';",
    "",
    "  function inner() \x7b",
    "    const innerVar = 'Inner';",
    "    console.log(innerVar);",
    "    console.log(outerVar);",
    "    console.log(globalVar);",
    "  \x7d",
    "",
    "  inner();",
    "\x7d",
    "",
    "outer();"]

def promiseAll : Exhibit where
  id := "promise-all"
  title := "Promise.all & fetch"
  description :=
    "Visualizes Promise.all with fetch requests and chaining."
  lines := [
    "const GOOGLE = 'https://www.google.com';",
    "const NEWS = 'https://www.news.google.com';",
    "",
    "console.log('Start');",
    "",
    "/* b, c, after */",
    "Promise.all([",
    "  fetch(GOOGLE).then(function b() \x7b",
    "    console.log('b done');",
    "  \x7d),",
    "  fetch(GOOGLE).then(function c() \x7b",
    "    console.log('c done');",
    "  \x7d),",
    "]).then(function after() \x7b",
    "  console.log('All done');",
    "\x7d);",
    "",
    "console.log('End');"]

end Exhibit

namespace Gallery

def exhibits : List Exhibit :=
  [.closure, .eventLoop, .hoisting, .scopeChain, .promiseAll]

def find? (id : String) : Option Exhibit := exhibits.find? (·.id == id)

/-- What is said about an id that no program has. -/
def unknownText (id : String) : String :=
  let known := ", ".intercalate (exhibits.map Exhibit.id)
  s!"Unknown example '{id}'. Available: {known}"

end Gallery

end Stepwise
