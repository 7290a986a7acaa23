/-!
The module that comes with the compiler. Its functions are linked in with the generated program.
-/

namespace Polled

def standardText : String :=
  "// Runtime natives linked by the generated C.\n" ++
  "\n" ++
  "sync native func print(console: Stream, message: &String): Stream\n" ++
  "sync native func read_line(console: Stream): (Stream, String)\n" ++
  "sync native func itoa(value: Integer): String\n" ++
  "sync native func concat(a: &String, b: &String): String\n" ++
  "sync native func len(message: &String): Integer\n" ++
  "sync native func copy(message: &String): String\n" ++
  "sync native func fork(clock: Clock): (Clock, Clock)\n" ++
  "sync native func join(a: Clock, b: Clock): Clock\n" ++
  "sync native func add(a: Integer, b: Integer): Integer\n" ++
  "native func sleep(clock: Clock): Clock\n"

def embedded? (name : String) : Option String :=
  if name = "std" then some standardText else none

end Polled
