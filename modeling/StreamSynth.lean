import StreamSynth.Main
import StreamSynth.Stencil.HostBuffer
import StreamSynth.Proofs.Access
import StreamSynth.Proofs.ConfigReading
import StreamSynth.Proofs.DisplayReading
import StreamSynth.Proofs.DrainOrder
import StreamSynth.Proofs.KernelIndependence
import StreamSynth.Proofs.LexicalScope
import StreamSynth.Proofs.MissReport
import StreamSynth.Proofs.OrdinaryStatement
import StreamSynth.Proofs.StreamArguments
import StreamSynth.Proofs.Valuation
import StreamSynth.Proofs.SizeOverflow
import StreamSynth.Proofs.ParsedForm
import StreamSynth.Proofs.OutputFiles
import StreamSynth.Proofs.NormalForm
import StreamSynth.Proofs.ConstantFolding
import StreamSynth.Proofs.FoldedAgreement
import StreamSynth.Proofs.ArgumentOutcome
import StreamSynth.Proofs.BufferType
import StreamSynth.Proofs.OneLine
import StreamSynth.Proofs.LineStructure
import StreamSynth.Proofs.NameSequence
import StreamSynth.Proofs.UniqueReading
import StreamSynth.Proofs.HeapBalance
import StreamSynth.Proofs.ByteLayout
import StreamSynth.Proofs.TokenReading
import StreamSynth.Proofs.StringLiteral
import StreamSynth.Proofs.LongestMatch
import StreamSynth.Proofs.HostCopy
import StreamSynth.Proofs.NameAmbiguity
import StreamSynth.Proofs.DescriptorName
