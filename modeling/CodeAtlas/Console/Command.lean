import CodeAtlas.Console.Asking
import CodeAtlas.Console.Exporting
import CodeAtlas.Console.Serving
import CodeAtlas.Console.Setup
import CodeAtlas.Console.Standing
import CodeAtlas.Console.Watching

/-!
# Commands
-/

namespace CodeAtlas.Console

inductive Command where
  | setUp
  | index (flags : IndexFlags)
  | query (question : String)
  | status
  | watch (noStore : Bool) (wait : Float) (ticks : List Tick)
  | serve (transport : String)
  | view (port : Int) (noBrowser : Bool)
  | exportKeys (flags : ExportFlags)

def Command.run (root : Path) : Command → ConsoleM Unit
  | .setUp => Console.setUp root
  | .index flags => Console.index root flags
  | .query question => Console.query root question
  | .status => Console.status root
  | .watch noStore wait ticks => Console.watch root noStore wait ticks
  | .serve transport => Console.serve root transport
  | .view port noBrowser => Console.view root port noBrowser
  | .exportKeys flags => Console.exportKeys root flags

end CodeAtlas.Console
