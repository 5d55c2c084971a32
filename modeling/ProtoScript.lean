import ProtoScript.Compiler
import ProtoScript.Json.Reader
import ProtoScript.Json.Writer
import ProtoScript.Schema.Codec
import ProtoScript.Proofs.Agreement
import ProtoScript.Proofs.LoadOrder
import ProtoScript.Proofs.Registrations
import ProtoScript.Proofs.Assignments
import ProtoScript.Proofs.OwnTypes
import ProtoScript.Proofs.RequestLaws
import ProtoScript.Proofs.SharedPackages
import ProtoScript.Proofs.History
import ProtoScript.Proofs.Violations
import ProtoScript.Proofs.Spellings
import ProtoScript.Proofs.UnrelatedPackages
import ProtoScript.Proofs.IgnoredOptions
import ProtoScript.Proofs.TrackingSteps
import ProtoScript.Proofs.ByteOffsets
import ProtoScript.Proofs.SegmentWalk
import ProtoScript.Proofs.Renaming
import ProtoScript.Proofs.Interruption
import ProtoScript.Proofs.Resolved
import ProtoScript.Proofs.MethodNames
import ProtoScript.Proofs.MetadataReading
import ProtoScript.Proofs.StringDefaults
import ProtoScript.Proofs.EnumReading
import ProtoScript.Proofs.Stems
import ProtoScript.Proofs.Tables
import ProtoScript.Proofs.RecordingSteps
