import FastValidate.Lib.Automaton
import FastValidate.Lib.Decoder
import FastValidate.Lib.Lanes
import FastValidate.Lib.Masks
import FastValidate.Lib.Loops
import FastValidate.Lib.WordLoops
import FastValidate.Lib.Rounds
import FastValidate.Spec.Utf8
import FastValidate.Spec.CodePoints
import FastValidate.Code.SimdUtf8Check
import FastValidate.Code.SimdUtf8CheckAvx512
import FastValidate.Code.SimdAsciiCheck
import FastValidate.Code.SimdReads
import FastValidate.Code.Hoehrmann
import FastValidate.Code.Benchmark
import FastValidate.Code.HoehrmannReads
import FastValidate.Code.BenchmarkReads
import FastValidate.Code.BenchmarkRuns
import FastValidate.Code.Unit
import FastValidate.Proofs.Utf8
import FastValidate.Proofs.Carry
import FastValidate.Proofs.Bytes
import FastValidate.Proofs.Block
import FastValidate.Proofs.Shape
import FastValidate.Proofs.SimdUtf8Check
import FastValidate.Proofs.SimdUtf8CheckAvx512
import FastValidate.Proofs.AsciiPath
import FastValidate.Proofs.Streams
import FastValidate.Proofs.ErrorLanes
import FastValidate.Proofs.CarryLaw
import FastValidate.Proofs.CarryRange
import FastValidate.Proofs.Hoehrmann
import FastValidate.Proofs.HoehrmannDouble
import FastValidate.Proofs.HandOver
import FastValidate.Proofs.CodePoints
import FastValidate.Proofs.HoehrmannDecode
import FastValidate.Proofs.Composition
import FastValidate.Proofs.HoehrmannSplit
import FastValidate.Proofs.Unit
import FastValidate.Proofs.SimdAsciiCheck
import FastValidate.Proofs.SimdReads
import FastValidate.Proofs.ValidateUtf8
import FastValidate.Proofs.ValidateUtf8Reads
import FastValidate.Proofs.ValidateUtf8Stops
import FastValidate.Proofs.PopulateUtf8
import FastValidate.Proofs.PopulateRuns
import FastValidate.Proofs.HoehrmannReads
import FastValidate.Proofs.BenchmarkRuns
