import StreamSynth.Config.Canonical
import StreamSynth.Region.Host
import StreamSynth.Report.Sha256

/-!
# Reports

Two JSON records accompany the generated code: the kernels with their arguments, and what the
code was built from. Keys stand in alphabetical order.
-/

namespace StreamSynth

/-- A report as text: one item or field to a line, with a line end after the last. -/
def Json.report (j : Json) : String := j.pretty 0 ++ "\n"

def ArgumentRole.reportName : ArgumentRole → String
  | memory .. => "memory_buffer"
  | stream _ => "stream"
  | scalar => "scalar"

def Argument.toJson (arg : Argument) : Json :=
  let type := match arg.stencil? with
    | some stencil => [("cpp_type", Json.string stencil.generated)]
    | none => []
  let size := match arg.size? with
    | some size => [("size", Json.string size.display)]
    | none => []
  .object (type ++
    [("kind", .string arg.role.reportName), ("name", .string arg.name),
     ("read", .bool arg.isRead)] ++ size ++
    [("ty", .string arg.type.display), ("write", .bool arg.isWritten)])

def RegionRecord.toJson (record : RegionRecord) : Json :=
  .object
    [("args", .list (record.args.map Argument.toJson)),
     ("kernel", .string record.kernel),
     ("target", .string record.target)]

/-- The kernels and their arguments, in the order of the kernels. -/
def closureReport (regions : List RegionRecord) : String :=
  (Json.object [("kernels", .list (regions.map RegionRecord.toJson))]).report

def version : String := "0.1.0"

def Config.fingerprint (c : Config) : String := Sha256.hexDigest c.canonical

def buildReport (source : String) (config : Config) : String :=
  (Json.object
    [("compiler_version", .string version),
     ("config_fingerprint", .string config.fingerprint),
     ("source_hash", .string (Sha256.hexDigest source))]).report

end StreamSynth
