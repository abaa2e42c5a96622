import StreamSynth.Config.Basic
import StreamSynth.Report.Json

/-!
# The canonical text of a configuration

A compact JSON object with all fields in a fixed order. Equal texts mean equal configurations, so
the text stands for the configuration in build records.
-/

namespace StreamSynth

def Json.strings (texts : List String) : Json := .list (texts.map .string)

def Naming.fieldNames : List String :=
  ["region_prefix", "stream_suffix", "stencil_suffixes", "update_suffixes", "scalar_suffixes",
   "buffer_suffix"]

def Naming.toJson (n : Naming) : Json :=
  .object (Naming.fieldNames.zip
    [.string n.regionStart, .string n.streamSuffix, .strings n.stencilSuffixes,
     .strings n.updateSuffixes, .strings n.scalarSuffixes, .string n.descriptorSuffix])

namespace Config

def fieldNames : List String :=
  ["kernel_prefix", "stream_depth", "naming", "driver_headers", "kernel_headers",
   "interface_pragmas"]

def toJson (c : Config) : Json :=
  .object (fieldNames.zip
    [.string c.kernelStem, .nat c.streamDepth, c.naming.toJson, .strings c.driverHeaders,
     .strings c.kernelHeaders, .bool c.interfacePragmas])

def canonical (c : Config) : String := c.toJson.compact

end Config

end StreamSynth
