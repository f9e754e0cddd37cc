import Synopsis.Builtin
import Synopsis.Cli.Run

/-! A run of the program over the parsers that come with it. -/
namespace Synopsis.Cli

/-- Without an encoding of its own the program estimates tokens. -/
def Libraries.bundled : Libraries where
  parsers := .bundled

def Invocation.run (i : Invocation) (env : Config.Environment) (t : FileTree) :
    Except RunError Report :=
  i.runWith .bundled env t

end Synopsis.Cli
