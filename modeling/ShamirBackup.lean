import ShamirBackup.Main
import ShamirBackup.Proofs.Absorption
import ShamirBackup.Proofs.Admission
import ShamirBackup.Proofs.Collecting
import ShamirBackup.Proofs.Completeness
import ShamirBackup.Proofs.EntryOrder
import ShamirBackup.Proofs.EntryPoints
import ShamirBackup.Proofs.Heading
import ShamirBackup.Proofs.Layout
import ShamirBackup.Proofs.Planning
import ShamirBackup.Proofs.Prefixes
import ShamirBackup.Proofs.Register
import ShamirBackup.Proofs.Rejection
import ShamirBackup.Proofs.Reports
import ShamirBackup.Proofs.Secrecy
import ShamirBackup.Proofs.Services
import ShamirBackup.Proofs.Tokens
import ShamirBackup.Proofs.Truncation
import ShamirBackup.Proofs.Writing
import ShamirBackup.Redacted
import ShamirBackup.Service.Json
