import VoleAct.Basics
import VoleAct.Sha3
import VoleAct.Rng
import VoleAct.Lib.LeBytes
import VoleAct.Lib.Lists
import VoleAct.Lib.Codec
import VoleAct.Lib.Counting
import VoleAct.Lib.PolynomialHash
import VoleAct.Lib.FrobeniusField
import VoleAct.Lib.BinaryCounter
import VoleAct.Lib.BinaryPoly
import VoleAct.Lib.CoeffList
import VoleAct.Lib.GaussJordan
import VoleAct.Lib.OilVinegar
import VoleAct.Lib.WriteOnce
import VoleAct.Lib.Interleaving
import VoleAct.Lib.Linearization
import VoleAct.Lib.Service
import VoleAct.Lib.Simulates
import VoleAct.Lib.Rejection
import VoleAct.Lib.Budget
import VoleAct.Lib.Sponge
import VoleAct.BinaryFields.GF2p128
import VoleAct.BinaryFields.GF2p128Field
import VoleAct.BinaryFields.GF2p128Mul
import VoleAct.BinaryFields.GF16
import VoleAct.BinaryFields.Embed
import VoleAct.BinaryFields.Packed
import VoleAct.BinaryFields.Nibbles
import VoleAct.VectorCommit
import VoleAct.VectorCommit.Binding
import VoleAct.VectorCommit.Uniqueness
import VoleAct.Voleith.Bits
import VoleAct.Voleith.Transpose
import VoleAct.Voleith.Params
import VoleAct.Voleith.Vole
import VoleAct.Voleith.VoleCorrelation
import VoleAct.Voleith.VoleReference
import VoleAct.Voleith.Transcript
import VoleAct.Voleith.DomainSeparation
import VoleAct.Voleith.Circuit
import VoleAct.Voleith.Backend
import VoleAct.Voleith.Proof
import VoleAct.Voleith.Semantics
import VoleAct.Voleith.BackendSpec
import VoleAct.Voleith.QuickSilver
import VoleAct.Voleith.WideHash
import VoleAct.Voleith.WideHashLaws
import VoleAct.Voleith.Completeness
import VoleAct.Voleith.Consistency
import VoleAct.Voleith.ZeroKnowledge
import VoleAct.Voleith.Reconstruct
import VoleAct.Voleith.Safety
import VoleAct.Voleith.ProofCodec
import VoleAct.Voleith.ProofLength
import VoleAct.Voleith.TranscriptBinding
import VoleAct.Voleith.AssertionBound
import VoleAct.Voleith.Extraction
import VoleAct.Voleith.ProofUniqueness
import VoleAct.Voleith.HonestAnswers
import VoleAct.Voleith.Builder
import VoleAct.Mayo.Params
import VoleAct.Mayo.Mat
import VoleAct.Mayo.SampleSolution
import VoleAct.Mayo.SampleLaw
import VoleAct.Mayo.Scheme
import VoleAct.Mayo.Attempts
import VoleAct.Mayo.Preimage
import VoleAct.Mayo.SignatureLaw
import VoleAct.Mayo.WhippedForms
import VoleAct.Mayo.FormsInjective
import VoleAct.Mayo.KeyCodec
import VoleAct.Mayo.Kernels
import VoleAct.Act.Keccak
import VoleAct.Act.Credential
import VoleAct.Act.Sponge
import VoleAct.Act.KeccakCircuit
import VoleAct.Act.MayoTerms
import VoleAct.Act.Circuit
import VoleAct.Act.CircuitSpec
import VoleAct.Act.ShakeCircuit
import VoleAct.Act.Adder
import VoleAct.Act.Wire
import VoleAct.Act.Markers
import VoleAct.Act.Statement
import VoleAct.Act.PublicKey
import VoleAct.Act.Token
import VoleAct.Act.Issue
import VoleAct.Act.Spend
import VoleAct.Act.Store
import VoleAct.Act.Issuer
import VoleAct.Act.IssuerKey
import VoleAct.Act.Settlement
import VoleAct.Act.Replicas
import VoleAct.Act.Client
import VoleAct.Act.Aliases
import VoleAct.Act.RequestLength
import VoleAct.Act.Codecs
import VoleAct.Act.Session
import VoleAct.Act.Server
import VoleAct.Act.WireSession
import VoleAct.Act.ByteSafety
import VoleAct.Act.Knowledge
import VoleAct.Act.Fiscal
import VoleAct.Act.Solvency
import VoleAct.Act.Linearizability
import VoleAct.Act.ReplicaLedger
import VoleAct.Act.Durability
import VoleAct.Act.Network
import VoleAct.Act.NetworkValue
import VoleAct.Act.StatementBinding
import VoleAct.Act.ContextBinding
